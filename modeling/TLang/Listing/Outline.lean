/-! Indented text, the form in which trees are shown. -/
namespace TLang

/-- Lines of text, each with the depth at which it stands. -/
abbrev Outline := List (Nat × String)

namespace Outline

def leaf (text : String) : Outline := [(0, text)]

/-- Move everything one level to the right. -/
def nested (o : Outline) : Outline := o.map fun (depth, text) => (depth + 1, text)

/-- A heading with what stands under it. -/
def under (heading : String) (body : Outline) : Outline := leaf heading ++ nested body

/-- An annotation behind a blank, or nothing if there is none. -/
def note {α : Type} (text : α → String) : Option α → String
  | some a => " " ++ text a
  | none => ""

/-- Two blanks for every level, and a line feed after every line. -/
def text (o : Outline) : String :=
  String.join (o.map fun (depth, text) => String.join (List.replicate depth "  ") ++ text ++ "\n")

end Outline
end TLang
