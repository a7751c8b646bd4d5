import LoxLang.Syntax.Debug
import LoxLang.Syntax.Plain
import LoxLang.Syntax.Sexpr

/-!
# Trees as values

A tree can stand among the values of a program. It is shown as an S-expression, and its kind is its shape.
-/

namespace LoxLang

def Value.ofNode (n : Node) : Value :=
  .foreign ⟨n.shape, fun width level => n.sexpr width level, n.hasText, n.debugText, n.data⟩

end LoxLang
