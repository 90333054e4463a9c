/-
  FlagFold.Command.Options

  The options of the command line.  Long options may be cut short as long as only
  one begins that way; a value may follow in the same argument or in the next one;
  after two dashes nothing is an option.
-/

import FlagFold.Report

namespace FlagFold

/-- What is asked for on the command line. -/
structure Options where
  input : Option Text := none
  features : List Text := []
  featuresJson : Text := []
  staticOnly : List Text := []
  outputDir : Option Text := none
  sourceMap : Bool := false
  summary : SummaryStyle := .short
  dumpAst : Bool := false
  checkParser : Bool := false
  listFeatureSets : Bool := false

/-- Why a command line asks for nothing that can be done. -/
inductive UsageError where
  | ambiguous
  | unknownOption
  | missingValue
  | unwantedValue
  | badChoice
  | tooManyArguments
  | missingInput
  | helpWanted
  deriving DecidableEq

namespace Options

/-- An option. -/
inductive Flag where
  | help
  | features
  | featuresJson
  | staticOnly
  | outputDir
  | sourceMap
  | output
  | dumpAst
  | checkParser
  | listFeatureSets
  deriving DecidableEq

/-- Does a value belong to the option? -/
def Flag.takesValue : Flag → Bool
  | features | featuresJson | staticOnly | outputDir | output => true
  | help | sourceMap | dumpAst | checkParser | listFeatureSets => false

/-- The options by their names. -/
def names : List (Text × Flag) :=
  [("-h", .help), ("--help", .help), ("-f", .features), ("--features", .features),
   ("--features-json", .featuresJson), ("--static-only", .staticOnly), ("-O", .outputDir),
   ("--output-dir", .outputDir), ("--source-map", .sourceMap), ("-o", .output),
   ("--output", .output), ("-da", .dumpAst), ("--dump-ast", .dumpAst), ("-cp", .checkParser),
   ("--check-parser", .checkParser), ("--list-feature-sets", .listFeatureSets)].map
    fun (name, flag) => (text name, flag)

/-- The option of a full name. -/
private def named? (name : Text) : Option Flag := Table.find? names name

/-- What an argument is: a value, the mark after which all are values, or an option with the
value in the same argument. A name of one dash may be followed by more names of one letter. -/
inductive Argument where
  | value (t : Text)
  | mark
  | option (flag : Flag) (long : Bool) (value : Option Text)
  deriving DecidableEq

/-- A text cut at its first equals sign. -/
private def cutAtEquals (t : Text) : Text × Option Text :=
  let name := t.takeWhile fun (c : CodePoint) => !(c = '=')
  if name.length < t.length then (name, some (t.drop (name.length + 1))) else (t, none)

/-- The options that a name which is no full name may mean, with the value in it. -/
private def meanings (t : Text) : List (Flag × Bool × Option Text) :=
  if (text "--").isPrefixOf t then
    let (start, value) := cutAtEquals t
    (names.filter fun (name, _) => start.isPrefixOf name).map fun (_, flag) => (flag, true, value)
  else
    names.filterMap fun (name, flag) =>
      if name = t.take 2 then some (flag, false, some (t.drop 2))
      else if t.isPrefixOf name then some (flag, false, none)
      else none

/-- Is the text a negative number in decimals? -/
private def isNegativeNumber (t : Text) : Bool :=
  let body := t.drop 1
  let whole := body.takeWhile CodePoint.isDigit
  let rest := body.drop whole.length
  (!whole.isEmpty && (rest.isEmpty || rest = text "\n")) ||
    (rest.head? = some (CodePoint.ofChar '.') &&
      (let places := (rest.drop 1).takeWhile CodePoint.isDigit
       !places.isEmpty && (rest.length = places.length + 1 ||
        rest.drop (places.length + 1) = text "\n")))

/-- What an argument is that stands before the mark. -/
def classify (t : Text) : Except UsageError Argument :=
  if t.head? ≠ some (CodePoint.ofChar '-') then .ok (.value t)
  else if t = text "--" then .ok .mark
  else
    let long := (text "--").isPrefixOf t
    match named? t with
    | some flag => .ok (.option flag long none)
    | none =>
      if t.length = 1 then .ok (.value t)
      else
        let (start, value) := cutAtEquals t
        match if value.isSome then named? start else none with
        | some flag => .ok (.option flag long value)
        | none =>
          -- Neither a full name nor one with a value: a name cut short, or letters together.
          match meanings t with
          | [(flag, long, value)] => .ok (.option flag long value)
          | _ :: _ :: _ => .error .ambiguous
          | [] =>
            if isNegativeNumber t || (text " ").occursIn t then .ok (.value t)
            else .error .unknownOption

/-- What the arguments are, up to the mark by their form, all values after it. -/
def classifyAll : List Text → Except UsageError (List Argument)
  | [] => .ok []
  | t :: rest => do
    match ← classify t with
    | .mark => return .mark :: rest.map .value
    | argument => return argument :: (← classifyAll rest)

/-- Takes an option with its value. -/
def set (o : Options) (flag : Flag) (value : Text) : Except UsageError Options :=
  match flag with
  | .help => .error .helpWanted
  | .features => .ok { o with features := o.features ++ [value] }
  | .featuresJson => .ok { o with featuresJson := value }
  | .staticOnly => .ok { o with staticOnly := o.staticOnly ++ [value] }
  | .outputDir => .ok { o with outputDir := some value }
  | .sourceMap => .ok { o with sourceMap := true }
  | .output =>
    match SummaryStyle.ofName? value with
    | some summary => .ok { o with summary }
    | none => .error .badChoice
  | .dumpAst => .ok { o with dumpAst := true }
  | .checkParser => .ok { o with checkParser := true }
  | .listFeatureSets => .ok { o with listFeatureSets := true }

/-- Takes an option whose value stands in the same argument. What follows the name of an option
without value is another name of one letter, if the first has one dash; `limit` bounds how
many follow. -/
def setJoined (o : Options) (flag : Flag) (long : Bool) (value : Text) :
    (limit : Nat) → Except UsageError Options
  | 0 => .error .unwantedValue
  | limit + 1 =>
    if flag.takesValue then o.set flag value
    else if long then .error .unwantedValue
    else match value with
      | [] => .error .unwantedValue
      | c :: rest =>
        match named? ['-', c] with
        | none => .error .unwantedValue
        | some next => do
          let o ← o.set flag []
          if !rest.isEmpty then o.setJoined next false rest limit
          else if next.takesValue then throw .missingValue
          else o.set next []

/-- Takes all arguments; `filled` tells whether the input has been given. -/
def takeAll (o : Options) (filled : Bool) : List Argument → Except UsageError Options
  | [] => .ok o
  | .mark :: rest => if filled then .error .tooManyArguments else o.takeAll false rest
  | .value t :: rest =>
    if filled then .error .tooManyArguments
    else
      let o := { o with input := some t }
      match rest with
      | .mark :: rest => o.takeAll true rest
      | rest => o.takeAll true rest
  | .option flag long (some value) :: rest => do
    let o ← o.setJoined flag long value (value.length + 1)
    o.takeAll filled rest
  | .option flag _ none :: rest =>
    if flag.takesValue then
      match rest with
      | .value t :: rest => do
        let o ← o.set flag t
        o.takeAll filled rest
      | _ => .error .missingValue
    else do
      let o ← o.set flag []
      o.takeAll filled rest

/-- The options on a command line. -/
def parse (arguments : List Text) : Except UsageError Options := do
  let o ← ({} : Options).takeAll false (← classifyAll arguments)
  let given := (o.input.map (!·.isEmpty)).getD false
  if o.listFeatureSets || given then return o else throw .missingInput

end Options
end FlagFold
