import TLang.Compilation

/-! Compilation into a file. -/
namespace TLang

/-- A folder without subfolders, as the files in it. -/
abbrev Folder := List (String × String)

namespace Folder

/-- A file of a folder is named by one component that is not the folder itself or the one
above. -/
def isFileName (path : String) : Bool :=
  path ≠ "" && path ≠ "." && path ≠ ".." && !path.toList.contains '/'

/-- Write a file, in place of any file of that name. -/
def write? (folder : Folder) (path contents : String) : Option Folder :=
  if isFileName path then
    some ((path, contents) :: folder.filter (·.1 ≠ path))
  else
    none

def read? (folder : Folder) (path : String) : Option String := folder.lookup path

end Folder

/-- Why a program is not compiled to a file. -/
inductive OutputError where
  | compilation (cause : CompileError)
  | write (path : String)
deriving DecidableEq

namespace OutputError

def message : OutputError → String
  | compilation _ => "compilation failed"
  | write path => s!"failed to write assembly to {path}"

end OutputError

namespace Program

/-- Compile a program and write its assembly to a file. Nothing is written if it does not
compile. -/
def compileToFile (options : Options) (p : Program) (folder : Folder) (path : String) :
    Except OutputError (Compilation × Folder) :=
  match p.compile options with
  | .error cause => .error (.compilation cause)
  | .ok compilation =>
    match folder.write? path compilation.assembly with
    | some folder => .ok (compilation, folder)
    | none => .error (.write path)

end Program
end TLang
