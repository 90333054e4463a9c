/-
  FlagFold.Feature.Presets

  The feature sets that are always there: one per platform.
-/

import FlagFold.Table

namespace FlagFold.Presets

/-- Each flag with its values on Internet Explorer 11, on Node.js and on Chrome. -/
def flags : List (String × Bool × Bool × Bool) :=
  [("arraybuffer", true, true, true),
   ("blob", true, true, true),
   ("dom-mutationobserver", false, false, true),
   ("dom-webanimation", false, false, true),
   ("es-observable", false, false, false),
   ("es2017-object", false, false, true),
   ("es2017-string", false, false, true),
   ("es6-array", false, true, true),
   ("es6-array-fill", false, true, true),
   ("es6-map", false, true, true),
   ("es6-math", false, true, true),
   ("es6-math-imul", false, true, true),
   ("es6-object", false, true, true),
   ("es6-promise", false, true, true),
   ("es6-set", false, true, true),
   ("es6-string", false, true, true),
   ("es6-string-raw", false, true, true),
   ("es6-symbol", false, true, true),
   ("es6-weakmap", false, true, true),
   ("es7-array", false, true, true),
   ("fetch", false, false, true),
   ("filereader", true, false, true),
   ("float32array", true, true, true),
   ("formdata", false, false, true),
   ("host-node", false, true, false),
   ("host-browser", true, false, true),
   ("microtasks", true, true, true),
   ("node-buffer", false, true, false),
   ("object-assign", false, true, true),
   ("postmessage", true, false, true),
   ("raf", true, false, true),
   ("setimmediate", true, true, false),
   ("xhr", true, false, true),
   ("xhr2", true, false, true)]

/-- The values on Internet Explorer 11. -/
def ie11 : Table Bool := flags.map fun (flag, a, _, _) => (text flag, a)

/-- The values on Node.js. -/
def node : Table Bool := flags.map fun (flag, _, b, _) => (text flag, b)

/-- The values on Chrome. -/
def chrome : Table Bool := flags.map fun (flag, _, _, c) => (text flag, c)

/-- The presets by name, in order of their names. -/
def all : Table (Table Bool) :=
  [(text "chrome", chrome), (text "ie11", ie11), (text "node", node)]

end FlagFold.Presets
