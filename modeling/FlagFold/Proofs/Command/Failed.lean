/-
  FlagFold.Proofs.Command.Failed

  What the work on a file leaves behind when it fails.  The code and its map are made
  before anything is written, so the files are as they were unless the failure strikes
  once the output is open.  It is left with a beginning of the code then, or with all
  of it if what fails is to write the map, which is left as it was or with a beginning
  (`Command.LeftOver`).
-/

import FlagFold.Proofs.Command.Batch
import FlagFold.Proofs.Command.Reading

namespace FlagFold

/-- The text that `readText` gives is that in the file. -/
theorem Job.textIn_of_run_readText {path t : Text} {settings : Settings} {w left : World}
    (h : (readText path).run settings w = (.ok t, left)) :
    textIn settings.host w.files path = .ok t := by
  rw [run_readText] at h
  split at h
  case h_1 => cases h
  case h_2 => exact congrArg Prod.fst h

namespace Command

/-! ## What is left of the output -/

/-- What is left in `files'` of the file at `output` and of that beside it, both as they were in
`files` when the work began, if `failure` strikes once `output` is open. Nothing else is other than
it was. -/
inductive LeftOver (host : Host) (files files' : Files) (output code : Text) (map : Option Json)
    (failure : Failure) : Prop
  /-- The output holds a beginning of the code, where the system has taken no more. -/
  | codeBegun (bytes : List UInt8) (count : Nat) (refusal : Refusal)
      (hcode : code.utf8? = some bytes)
      (hshort : host.shortfall? output bytes = some (count, refusal))
      (hfailure : failure = .file (.refused refusal))
      (hbegun : files'.bytesAt? (files.resolve output) = some (bytes.take count))
      (hothers : ∀ place ≠ files.resolve output, files'.bytesAt? place = files.bytesAt? place)
  /-- The output holds the code, and the map beside it cannot be opened. -/
  | mapUnopened (m : Json) (bytes : List UInt8) (hmap : map = some m)
      (hcode : code.utf8? = some bytes)
      (hunopened : Job.unopened? host files' (output ++ text ".map") = some failure)
      (hfull : files'.bytesAt? (files.resolve output) = some bytes)
      (hothers : ∀ place ≠ files.resolve output, files'.bytesAt? place = files.bytesAt? place)
  /-- The map holds a beginning of what was to be in it, and the output holds the code, if it is
  another file. -/
  | mapBegun (m : Json) (bytes mapBytes : List UInt8) (count : Nat) (refusal : Refusal)
      (hmap : map = some m) (hcode : code.utf8? = some bytes)
      (hmapText : (Job.jsonText host m).utf8? = some mapBytes)
      (hshort : host.shortfall? (output ++ text ".map") mapBytes = some (count, refusal))
      (hfailure : failure = .file (.refused refusal))
      (hfull : files.resolve output ≠ files.resolve (output ++ text ".map") →
        files'.bytesAt? (files.resolve output) = some bytes)
      (hbegun : files'.bytesAt? (files.resolve (output ++ text ".map")) =
        some (mapBytes.take count))
      (hothers : ∀ place ≠ files.resolve output,
        place ≠ files.resolve (output ++ text ".map") →
          files'.bytesAt? place = files.bytesAt? place)

section Failed

variable {settings : Settings} {task : FileTask} {path : Text} {w mid left : World}
  {report made : FileReport} {code : Text} {map : Option Json} {failure : Failure}

/-- Once the output holds `bytes`, a failure of `writeJson` leaves what is left of the output. -/
theorem leftOver_of_run_writeJson {files : Files} {start : World} {output : Text} {m : Json}
    {bytes : List UInt8} (hsame : start.files.bytesAt? = files.bytesAt?)
    (hresolve : ∀ path, start.files.resolve path = files.resolve path)
    (hcode : code.utf8? = some bytes) (hone : failure.concernsOneFile)
    (h : (Job.writeJson (output ++ text ".map") m).run settings
      { start with files := start.files.put (files.resolve output) bytes } =
        (.error failure, left)) :
    LeftOver settings.host files left.files output code (some m) failure := by
  have hothers : ∀ place ≠ files.resolve output,
      (start.files.put (files.resolve output) bytes).bytesAt? place = files.bytesAt? place :=
    fun place hplace => (Files.bytesAt?_put_of_ne hplace).trans (congrFun hsame place)
  -- It is not the depth of the map that fails, as that ends the whole run.
  have hstack : failure ≠ .stackExhausted := by
    rintro rfl
    cases hone
  have hrun := Job.run_writeText_of_run_writeJson_eq_error hstack h
  have hwritten := Job.written_writeText (output ++ text ".map") (Job.jsonText settings.host m)
    settings { start with files := start.files.put (files.resolve output) bytes }
  rw [hrun] at hwritten
  cases hwritten with
  | unopened _ hunopened =>
    exact .mapUnopened m bytes rfl hcode hunopened (Files.bytesAt?_put_self _ _ _) hothers
  | noBytes => cases hone
  | begun place mapBytes count refusal hplace hfree hmapBytes hshort =>
    have hbeside : files.resolve (output ++ text ".map") = place :=
      ((hresolve _).symm.trans (Files.resolve_congr (Files.links_put _ _ _) _).symm).trans
        (Files.resolve_of_locate hplace)
    subst hbeside
    refine .mapBegun m bytes mapBytes count refusal rfl hcode hmapBytes hshort rfl
      (fun happart => ?_) (Files.bytesAt?_put_self _ _ _) fun other hother hbeside => ?_
    · exact (Files.bytesAt?_put_of_ne happart).trans (Files.bytesAt?_put_self _ _ _)
    · exact (Files.bytesAt?_put_of_ne hbeside).trans (hothers other hother)

/-- If `writeOutput` fails, the files hold what they held, or what is `LeftOver` of the output. -/
theorem of_run_writeOutput_eq_error {output : Text}
    (h : (writeOutput output code map).run settings w = (.error failure, left))
    (hone : failure.concernsOneFile) :
    left.files.bytesAt? = w.files.bytesAt? ∨
      LeftOver settings.host w.files left.files output code map failure := by
  unfold writeOutput at h
  have hfilled := Job.filled_makeDirectory (fun _ => False) (Sources.directoryOf output) settings w
  rw [Job.run_bind] at h
  -- To make the directory changes no file, whether it fails or not.
  cases hdirectory : (Job.makeDirectory (Sources.directoryOf output)).run settings w with
  | mk result start =>
    rw [hdirectory] at hfilled h
    have hsame : start.files.bytesAt? = w.files.bytesAt? :=
      funext fun place => hfilled.bytesAt?_eq id
    have hresolve := Files.resolve_congr hfilled.grows.links
    cases result with
    | error other =>
      cases h
      exact .inl hsame
    | ok =>
      simp only [Job.run_bind] at h
      have hwritten := Job.written_writeText output code settings start
      generalize (Job.writeText output code).run settings start = ran at h hwritten
      obtain ⟨result, mid⟩ := ran
      cases hwritten with
      | unopened =>
        cases h
        exact .inl hsame
      -- Code without an encoding fails for more than this file.
      | noBytes =>
        cases h
        cases hone
      | begun place bytes count refusal hplace hfree hbytes hshort =>
        cases h
        obtain rfl := (hresolve output).symm.trans (Files.resolve_of_locate hplace)
        refine .inr (.codeBegun bytes count refusal hbytes hshort rfl ?_ fun other hother => ?_)
        · exact Files.bytesAt?_put_self _ _ _
        · rw [← hsame]
          exact Files.bytesAt?_put_of_ne hother
      | full place bytes hplace hfree hbytes =>
        obtain rfl := (hresolve output).symm.trans (Files.resolve_of_locate hplace)
        cases map with
        | none => cases h
        | some m => exact .inr (leftOver_of_run_writeJson hsame hresolve hbytes hone h)

/-- If `deliver` fails, the files hold what they held, or what is `LeftOver` of the output for the
task. -/
theorem of_run_deliver_eq_error
    (h : (deliver task code map).run settings w = (.error failure, left))
    (hone : failure.concernsOneFile) :
    left.files.bytesAt? = w.files.bytesAt? ∨ ∃ output, task.outputPath = some output ∧
      LeftOver settings.host w.files left.files output code map failure := by
  unfold deliver at h
  split at h
  case h_1 =>
    have hkeeps := Job.keepsFiles_writeOut code settings w
    rw [h] at hkeeps
    exact .inl (congrArg _ hkeeps)
  case h_2 output houtput =>
    exact (of_run_writeOutput_eq_error h hone).imp_right fun hleftOver =>
      ⟨output, houtput, hleftOver⟩

/-- `produce` makes the code from what the file holds and reports in `changed` whether it is other;
nothing is written meanwhile. -/
theorem exists_of_run_produce
    (h : (produce task path report).run settings w = (.ok (code, map, made), mid))
    (hreport : report.changed = false) :
    mid.files = w.files ∧ ∃ source, Job.textIn settings.host w.files path = .ok source ∧
      (made.changed ↔ code ≠ source) := by
  have hkeeps := (dependsOn_produce task path report).keeps settings w
  rw [h] at hkeeps
  refine ⟨hkeeps, ?_⟩
  unfold produce at h
  obtain ⟨source, _, hread, h⟩ := Job.exists_of_run_bind h
  refine ⟨source, Job.textIn_of_run_readText hread, ?_⟩
  dsimp only at h
  -- The map beside the file is read only where one is asked for.
  have hfrom : ∃ read turn, (produceFrom task path source read report).run settings turn =
      (.ok (code, map, made), mid) := by
    split at h
    all_goals
      obtain ⟨read, turn, -, h⟩ := Job.exists_of_run_bind h
      exact ⟨read, turn, h⟩
  obtain ⟨read, turn, h⟩ := hfrom
  unfold produceFrom at h
  split at h
  case isTrue =>
    rw [Job.run_read_bind] at h
    dsimp only at h
    split at h
    case isTrue =>
      obtain ⟨_, _, hthrow, -⟩ := Job.exists_of_run_bind h
      cases hthrow
    case isFalse =>
      obtain ⟨_, _, -, h⟩ := Job.exists_of_run_bind h
      cases h
      exact decide_eq_true_iff
  case isFalse =>
    obtain ⟨_, _, -, h⟩ := Job.exists_of_run_bind h
    cases h
    simp [hreport]

/-- The work on the file at `path` fails in `deliver`, with code that is other than what the file
holds. -/
def Undelivered (settings : Settings) (task : FileTask) (path : Text) (w : World) : Prop :=
  ∃ source code map report mid failure left, Job.textIn settings.host w.files path = .ok source ∧
    (produce task path (task.report path)).run settings w = (.ok (code, map, report), mid) ∧
    code ≠ source ∧ (deliver task code map).run settings mid = (.error failure, left)

/-- Only a failure that concerns one file is `reported`, and nothing is written for it. -/
theorem of_run_reported {start : FileReport} {turn : World}
    (h : (reported path start failure).run settings turn = (.ok report, left)) :
    failure.concernsOneFile ∧ report = { start with error := some failure.message } ∧
      left.files = turn.files := by
  unfold reported at h
  split at h
  case isTrue hone =>
    cases h
    exact ⟨hone, rfl, rfl⟩
  case isFalse => cases h

/-- If `transformFile` reports an error, the files hold what they held, or what is `LeftOver` of the
output; and the report says `changed` only where code is `Undelivered`. -/
theorem of_transformFile_failed
    (hrun : (transformFile task path).run settings w = (.ok report, left))
    (herror : report.error ≠ none) :
    left.files.links = w.files.links ∧
    (left.files.bytesAt? = w.files.bytesAt? ∨ ∃ output code map made mid failure,
      task.outputPath = some output ∧
      (produce task path (task.report path)).run settings w = (.ok (code, map, made), mid) ∧
      report.error = some failure.message ∧
      LeftOver settings.host w.files left.files output code map failure) ∧
    (report.changed → Undelivered settings task path w) := by
  rw [run_transformFile] at hrun
  cases hproduce : (produce task path (task.report path)).run settings w with
  | mk produced mid =>
    rw [hproduce] at hrun
    cases produced with
    | error failure =>
      have hkeeps := (dependsOn_produce task path (task.report path)).keeps settings w
      rw [hproduce] at hkeeps
      obtain ⟨-, rfl, hleft⟩ := of_run_reported hrun
      have hsame := hleft.trans hkeeps
      exact ⟨congrArg _ hsame, .inl (congrArg _ hsame), nofun⟩
    | ok result =>
      obtain ⟨code, map, made⟩ := result
      obtain ⟨hkeeps, source, hsource, hchanged⟩ := exists_of_run_produce hproduce rfl
      cases hdeliver : (deliver task code map).run settings mid with
      | mk delivered last =>
        simp only [hdeliver] at hrun
        cases delivered with
        | ok =>
          cases hrun
          exact absurd (report_of_produce (Job.mayYield_of_run hproduce)).2 herror
        | error failure =>
          obtain ⟨hone, rfl, hleft⟩ := of_run_reported hrun
          have hfilled := filled_deliver (fun hnone => map_eq_none_of_produce hnone
            (Job.mayYield_of_run hproduce)) code settings mid
          rw [hdeliver] at hfilled
          refine ⟨?_, ?_, fun h => ⟨source, code, map, made, mid, failure, last, hsource, hproduce,
            hchanged.mp h, hdeliver⟩⟩
          · rw [hleft, ← hkeeps]
            exact hfilled.grows.links
          · rw [hleft, ← hkeeps]
            refine (of_run_deliver_eq_error hdeliver hone).imp_right ?_
            rintro ⟨output, houtput, hleftOver⟩
            exact ⟨output, code, map, made, mid, failure, houtput, rfl, rfl, hleftOver⟩

end Failed

/-! ## The files that are counted -/

theorem error_ne_none_of_failed {report : FileReport} (h : report.failed) :
    report.error ≠ none := by
  intro hfine
  rw [FileReport.failed, hfine] at h
  cases h

/-- If no report satisfies both `p` and `q`, those that satisfy one of them are no more than there
are `reports`. -/
theorem length_filter_add_length_filter_le {reports : List FileReport} {p q : FileReport → Bool}
    (h : ∀ r ∈ reports, q r → p r = false) :
    (reports.filter p).length + (reports.filter q).length ≤ reports.length := by
  have hsub : (reports.filter q).length ≤ (reports.filter (!p ·)).length := by
    rw [← List.countP_eq_length_filter, ← List.countP_eq_length_filter]
    exact List.countP_mono_left fun r hr hq => by simp [h r hr hq]
  have hall := List.length_eq_length_filter_add (l := reports) p
  omega

/-- `transformAll` makes a report for each of `paths`, and none that has failed says `changed` if no
code is `Undelivered`. -/
theorem of_transformAll {settings : Settings} {task : Files → Text → FileTask} {paths : List Text}
    {w left : World} {reports : List FileReport}
    (hrun : (transformAll task paths).run settings w = (.ok reports, left)) :
    reports.length = paths.length ∧
    ((∀ before path after done turn, paths = before ++ path :: after →
        (transformAll task before).run settings w = (.ok done, turn) →
        ¬ Undelivered settings (task turn.files path) path turn) →
      ∀ r ∈ reports, r.failed → r.changed = false) := by
  induction paths generalizing w reports with
  | nil =>
    cases hrun
    exact ⟨rfl, fun _ => by simp⟩
  | cons path rest ih =>
    rw [run_transformAll_cons] at hrun
    obtain ⟨report, mid, hfirst, hrun⟩ := Job.exists_of_run_bind hrun
    obtain ⟨later, last, hrest, hrun⟩ := Job.exists_of_run_bind hrun
    cases hrun
    obtain ⟨hlength, hlater⟩ := ih hrest
    refine ⟨by rw [List.length_cons, List.length_cons, hlength], fun hnone => ?_⟩
    rw [List.forall_mem_cons]
    refine ⟨fun hfailed => ?_, hlater fun before path' after done turn hsplit hbefore => ?_⟩
    · have herror := error_ne_none_of_failed hfailed
      have hdelivered := hnone [] path rest [] w rfl rfl
      exact Bool.eq_false_iff.mpr fun h =>
        hdelivered ((of_transformFile_failed hfirst herror).2.2 h)
    · -- The files before it are the first one and those before it among the others.
      refine hnone (path :: before) path' after (report :: done) turn (by rw [hsplit]; rfl) ?_
      rw [run_transformAll_cons, Job.run_bind, hfirst]
      simp only [Job.run_bind, hbefore]
      rfl

/-- If `transformFile` reports an error, all files are as they were, those of `task.outputPath` and
beside it too, or `LeftOver` where the failure strikes once the output is open. The report says
`changed` only where code is `Undelivered`; in a run without such a file no more files count as
changed and as failed than there are. -/
theorem failed_leaves (settings : Settings) :
    (∀ task path w report left,
      (transformFile task path).run settings w = (.ok report, left) → report.error ≠ none →
      left.files.links = w.files.links ∧
      (left.files.bytesAt? = w.files.bytesAt? ∨ ∃ output code map made mid failure,
        task.outputPath = some output ∧
        (produce task path (task.report path)).run settings w = (.ok (code, map, made), mid) ∧
        report.error = some failure.message ∧
        LeftOver settings.host w.files left.files output code map failure) ∧
      (report.changed → Undelivered settings task path w)) ∧
    ∀ task paths w reports left,
      (transformAll task paths).run settings w = (.ok reports, left) →
      (∀ before path after done turn, paths = before ++ path :: after →
        (transformAll task before).run settings w = (.ok done, turn) →
        ¬ Undelivered settings (task turn.files path) path turn) →
      (reports.filter (·.changed)).length + Summary.failures reports ≤ paths.length := by
  refine ⟨fun task path w report left => of_transformFile_failed, ?_⟩
  intro task paths w reports left hrun hnone
  obtain ⟨hlength, hfailed⟩ := of_transformAll hrun
  rw [← hlength]
  exact length_filter_add_length_filter_le (hfailed hnone)

/-! ## Output that is left -/

/-- The file of a module that asks for a flag. -/
def moduleEntry : FileEntry :=
  ⟨[text "a.js"], (text "import has from 'a/has';\nhas('b');\n").flatMap CodePoint.utf8⟩

/-- The module and the map beside it, and a directory in the place of the map for its output. -/
def besideDirectory : World where
  files := { entries := [moduleEntry,
    ⟨[text "a.js.map"], (text
      "\x7b\"version\":3,\"sources\":[\"a.ts\"],\"names\":[],\"mappings\":\"AAAA\"\x7d").flatMap
        CodePoint.utf8⟩,
    ⟨[text "out", text "a.js.map", text "x"], []⟩] }

/-- The module, and output for it from before. -/
def withOldOutput : World where
  files := { entries := [moduleEntry,
    ⟨[text "out", text "a.js"], (text "old;\n").flatMap CodePoint.utf8⟩] }

/-- No byte is taken for any file. -/
def onFullDisk : Settings where
  host := { shortfall? := fun _ _ => some (0, ⟨28, text "No space left on device"⟩) }

/-- The code for the module is to go to a directory, with its map. -/
def toOut : FileTask where
  features := [(text "b", true)]
  staticOnly := []
  outputPath := some (text "out/a.js")
  withMap := true

/-- A decidable outcome of `transformFile toOut`: the module is worked on, with a failure, and its
output holds `t` then. -/
theorem exists_run_toOut {settings : Settings} {w : World} {t : Text}
    (hreport : ((transformFile toOut (text "a.js")).run settings w).1.toOption.any fun report =>
      report.failed ∧ report.changed)
    (hread : (((transformFile toOut (text "a.js")).run settings w).2.files.read
      (text "out/a.js")).toOption = t.utf8? ∧ t.utf8?.isSome) :
    ∃ report left, (transformFile toOut (text "a.js")).run settings w = (.ok report, left) ∧
      report.failed ∧ report.changed ∧ left.files.Holds (text "out/a.js") t := by
  obtain ⟨report, hrun, hfailed, hchanged⟩ := exists_of_any hreport
  obtain ⟨bytes, hbytes⟩ := Option.isSome_iff_exists.mp hread.2
  refine ⟨report, _, Prod.ext hrun rfl, hfailed, hchanged, bytes, hbytes, ?_⟩
  rw [Files.toOption_read, hbytes] at hread
  exact Files.read_eq_ok_iff.mpr (Option.bind_eq_some_iff.mp hread.1)

set_option maxRecDepth 100000 in
theorem run_besideDirectory :
    ∃ report left, (transformFile toOut (text "a.js")).run {} besideDirectory = (.ok report, left) ∧
      report.failed ∧ report.changed ∧
      left.files.Holds (text "out/a.js") (text "import has from 'a/has';\ntrue;\n") :=
  exists_run_toOut (by decide +kernel) (by decide +kernel)

set_option maxRecDepth 100000 in
theorem run_onFullDisk :
    ∃ report left,
      (transformFile toOut (text "a.js")).run onFullDisk withOldOutput = (.ok report, left) ∧
      report.failed ∧ report.changed ∧ left.files.Holds (text "out/a.js") [] :=
  exists_run_toOut (by decide +kernel) (by decide +kernel)

/-- What is left of a module: its output if no map can be made for it, in a run of one file that
counts as changed and as failed; and nothing of what its output was before if the disk is full. -/
theorem failed_leaves_output :
    let path := text "a.js"
    (besideDirectory.files.isFile (text "out/a.js") = false ∧
      ∃ report left, (transformFile toOut path).run {} besideDirectory = (.ok report, left) ∧
        report.error ≠ none ∧
        left.files.Holds (text "out/a.js") (text "import has from 'a/has';\ntrue;\n") ∧
        report.changed ∧
        (transformAll (fun _ _ => toOut) [path]).run {} besideDirectory = (.ok [report], left) ∧
        1 < ([report].filter (·.changed)).length + Summary.failures [report]) ∧
    withOldOutput.files.Holds (text "out/a.js") (text "old;\n") ∧
      ∃ report left, (transformFile toOut path).run onFullDisk withOldOutput = (.ok report, left) ∧
        report.error ≠ none ∧ left.files.Holds (text "out/a.js") [] := by
  intro path
  refine ⟨⟨by decide, ?_⟩, ⟨_, by decide, rfl⟩, ?_⟩
  · obtain ⟨report, left, hrun, hfailed, hchanged, hholds⟩ := run_besideDirectory
    refine ⟨report, left, hrun, error_ne_none_of_failed hfailed, hholds, hchanged, ?_, ?_⟩
    · rw [run_transformAll_cons, Job.run_bind, hrun]
      rfl
    · simp [Summary.failures, hfailed, hchanged]
  · obtain ⟨report, left, hrun, hfailed, -, hholds⟩ := run_onFullDisk
    exact ⟨report, left, hrun, error_ne_none_of_failed hfailed, hholds⟩

/-- `besideDirectory` of its map, the output is all that is left; and a run over a file that is
missing counts one failure and no change. -/
theorem failed_leaves_refusedMap :
    let path := text "a.js"
    (∃ report left code map failure,
      (transformFile toOut path).run {} besideDirectory = (.ok report, left) ∧
      report.error ≠ none ∧
      LeftOver {} besideDirectory.files left.files (text "out/a.js") code map failure) ∧
    ∃ reports left, (transformAll (fun _ _ => toOut) [path]).run {} {} = (.ok reports, left) ∧
      reports.any (·.failed) ∧
      (reports.filter (·.changed)).length + Summary.failures reports ≤ 1 := by
  intro path
  constructor
  · obtain ⟨report, left, hrun, hfailed, -, bytes, -, hread⟩ := run_besideDirectory
    have herror := error_ne_none_of_failed hfailed
    obtain ⟨hlinks, hleft, -⟩ := (failed_leaves {}).1 _ _ _ _ _ hrun herror
    rcases hleft with
      hsame | ⟨output, code, map, made, mid, failure, houtput, -, -, hleftOver⟩
    · -- Before, there was no output.
      obtain ⟨place, hplace, hbytes⟩ := Files.read_eq_ok_iff.mp hread
      have hnone : besideDirectory.files.bytesAt?
          (besideDirectory.files.resolve (text "out/a.js")) = none := by decide
      rw [← Files.resolve_congr hlinks, Files.resolve_of_locate hplace, ← hsame, hbytes] at hnone
      cases hnone
    · cases houtput
      exact ⟨report, left, code, map, failure, hrun, herror, hleftOver⟩
  · have hmissing : Job.textIn {} {} path = .error (.file (.missing path)) := rfl
    have hrun : ∃ reports left, (transformAll (fun _ _ => toOut) [path]).run {} {} =
        (.ok reports, left) ∧ reports.any (·.failed) := ⟨_, _, rfl, by decide⟩
    obtain ⟨reports, left, hrun, hfailed⟩ := hrun
    refine ⟨reports, left, hrun, hfailed, (failed_leaves {}).2 _ _ _ _ _ hrun ?_⟩
    rintro before path' after done turn hsplit hbefore ⟨source, -, -, -, -, -, -, hsource, -⟩
    cases before with
    | cons first before => simp at hsplit
    | nil =>
      cases hsplit
      cases hbefore
      rw [hmissing] at hsource
      cases hsource

end Command
end FlagFold
