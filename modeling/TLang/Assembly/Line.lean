import TLang.Assembly.Instr

/-! Lines of an assembly file. -/
namespace TLang

/-- One line. The text of a raw line is that of a client. -/
inductive Line where
  | instr (i : Instr)
  | label (l : Label)
  | comment (text : String)
  /-- What follows is data. -/
  | dataSection
  /-- What follows is code. -/
  | textSection
  /-- The next place starts at a word boundary. -/
  | align
  | global (name : String)
  /-- A routine that is linked in. -/
  | external (name : String)
  /-- A word holding an address, or zero. -/
  | word (place : Option Label)
  /-- A labelled word that starts as zero. -/
  | cell (name : String)
  | raw (text : String)
deriving DecidableEq

namespace Line

def text : Line → String
  | instr i => i.text
  | label l => l.text ++ ":"
  | comment text => "#\t" ++ text
  | dataSection => "\t.data"
  | textSection => "\t.text"
  | align => "\t.align 4"
  | global name => "\t.globl " ++ name
  | external name => "\t.extern\t" ++ name
  | word none => "\t.long\t0"
  | word (some place) => "\t.long\t" ++ place.text
  | cell name => name ++ ":\t.long 0"
  | raw text => text

/-- The text of a file, each line ended by a line feed. -/
def fileText (lines : List Line) : String := String.join (lines.map fun l => l.text ++ "\n")

end Line
end TLang
