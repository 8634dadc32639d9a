/-
# The text of a type

A type is written in the notation that the reader of `TypeResolution.Notation` understands. Only the
first levels of a deeply nested type are written; what lies below them is cut off.

Key definitions: `Ty.shownLevels`, `Ty.render`.
-/
import TypeResolution.Ty.Basic

namespace TypeResolution

/-- The traits of an existential, joined. -/
def TraitSet.render (names : NameTable) (traits : TraitSet) : String :=
  " & ".intercalate (traits.names.map names.resolve)

namespace Ty

/-- The number of levels that are written, the type itself included. -/
def shownLevels : Nat := 21

/-- The text of a parameter, given that of its type: the usual convention is not written. -/
def renderParameter (convention : Convention) (type : String) : String :=
  if convention = .letting then type else convention.keyword ++ " " ++ type

/-- The text of the first levels of a type, and dots for what lies below. -/
def renderLevels (names : NameTable) : Nat → Ty → String
  | 0, _ => "..."
  | levels + 1, t =>
    let list (ts : List Ty) := ", ".intercalate (ts.map (renderLevels names levels))
    match t with
    | .var v => v.render
    | .param name => names.resolve name
    | .nominal name [] => names.resolve name
    | .nominal name args => names.resolve name ++ "<" ++ list args ++ ">"
    | .function params result =>
      let params := params.map fun p => renderParameter p.1 (renderLevels names levels p.2)
      "(" ++ ", ".intercalate params ++ ") -> " ++ renderLevels names levels result
    | .tuple [element] => "(" ++ list [element] ++ ",)"
    | .tuple elements => "(" ++ list elements ++ ")"
    | .existential traits =>
      if traits.names.isEmpty then "any" else "any " ++ traits.render names
    | .literal kind => "#" ++ kind.keyword
    | .error => "!"
    | .unresolved => "_"

/-- The text of a type. -/
def render (names : NameTable) (t : Ty) : String := renderLevels names shownLevels t

end Ty
end TypeResolution
