import RegisterColoring.Text.Basic

namespace RegisterColoring.Source

inductive Directive
  | openFunction (name : String)
  | closeFunction
  | declare (name : String) (type : String)
  | openScope
  | closeScope
deriving DecidableEq

def Directive.ofWords? : List String → Option Directive
  | [".func", name] => if Text.isIdentifier name.toList then some (.openFunction name) else none
  | [".endfunc"] => some .closeFunction
  | [".var", name, type] =>
    if Text.isIdentifier name.toList then some (.declare name type) else none
  | [".scope"] => some .openScope
  | [".endscope"] => some .closeScope
  | _ => none

end RegisterColoring.Source
