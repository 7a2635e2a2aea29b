import Resumable.Library

/-!
The names under which programs find the functions of the library, and the prelude: the functions that
are written in the language itself.
-/

namespace Resumable.Library

/-- A named function with the number of its arguments. -/
structure Entry where
  name : String
  arity : Nat
  function : Native

/-- A member of a module: a function or a constant. -/
inductive Member where
  | function (entry : Entry)
  | constant (name : String) (value : Value)

/-- The functions that are global variables, in the order in which they are defined. -/
def entries : List Entry :=
  [⟨"add", 2, .intArithmetic .add⟩, ⟨"sub", 2, .intArithmetic .sub⟩,
    ⟨"mul", 2, .intArithmetic .mul⟩, ⟨"div", 2, .intArithmetic .div⟩,
    ⟨"mod", 2, .intArithmetic .rem⟩,
    ⟨"+", 2, .arithmetic .add⟩, ⟨"-", 2, .arithmetic .sub⟩, ⟨"*", 2, .arithmetic .mul⟩,
    ⟨"/", 2, .arithmetic .div⟩, ⟨"%", 2, .arithmetic .rem⟩,
    ⟨"==", 2, .equal⟩, ⟨"!=", 2, .different⟩,
    ⟨"<", 2, .compare .less⟩, ⟨"<=", 2, .compare .atMost⟩,
    ⟨">", 2, .compare .greater⟩, ⟨">=", 2, .compare .atLeast⟩,
    ⟨"neg", 1, .negate⟩, ⟨"not", 1, .invert⟩,
    ⟨"len", 1, .length⟩, ⟨"get", 2, .get⟩, ⟨"push", 2, .push⟩, ⟨"head", 1, .head⟩,
    ⟨"tail", 1, .tail⟩, ⟨"range", 2, .range⟩, ⟨"record_get", 2, .fieldOf⟩,
    ⟨"str", 1, .render⟩, ⟨"type_of", 1, .typeOf⟩,
    ⟨"cell", 1, .newCell⟩, ⟨"cell_get", 1, .readCell⟩, ⟨"cell_set", 2, .writeCell⟩,
    ⟨"new_effect", 1, .newEffect⟩, ⟨"panic", 1, .panicWith⟩, ⟨"print", 1, .print⟩,
    ⟨"spawn", 1, .spawn⟩, ⟨"join", 1, .join⟩]

/-- The modules, each a record of its members. -/
def modules : List (String × List Member) :=
  [("math",
      [.function ⟨"sqrt", 1, .sqrt⟩, .function ⟨"abs", 1, .absolute⟩,
        .function ⟨"floor", 1, .floor⟩, .function ⟨"ceil", 1, .ceil⟩,
        .function ⟨"pow", 2, .pow⟩, .function ⟨"min", 2, .smaller⟩,
        .function ⟨"max", 2, .larger⟩, .constant "pi" (.float 3.141592653589793)]),
    ("string",
      [.function ⟨"concat", 2, .concat⟩, .function ⟨"upper", 1, .upper⟩,
        .function ⟨"lower", 1, .lower⟩, .function ⟨"trim", 1, .trim⟩,
        .function ⟨"split", 2, .split⟩, .function ⟨"contains", 2, .contains⟩]),
    ("time", [.function ⟨"now_ms", 0, .now⟩, .function ⟨"sleep", 1, .sleep⟩])]

/-- The source text of the prelude. -/
def prelude : String :=
  "\n".intercalate
    ["",
      "var id = |x| x;",
      "var compose = |f, g| |x| f(g(x));",
      "var fold = |f, acc, xs| if len(xs) == 0: acc else: " ++
        "fold(f, f(acc, head(xs)), tail(xs));",
      "var map = |f, xs| fold(|acc, x| push(acc, f(x)), [], xs);",
      "var filter = |p, xs| fold(|acc, x| if p(x): push(acc, x) else: acc, [], xs);",
      "var reverse = |xs| fold(|acc, x| [x] + acc, [], xs);",
      "var sum = |xs| fold(|a, b| a + b, 0, xs);",
      "var apply = |f, args| if len(args) == 0: f else: " ++
        "apply(f(head(args)), tail(args));",
      ""]

end Resumable.Library
