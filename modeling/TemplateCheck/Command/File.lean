import TemplateCheck.Text.Utf8

/-!
# Files

* `File`           what stands under a path
* `File.text`      the text of a file, or why there is none
-/

namespace TemplateCheck.Command

inductive File where
  | missing
  | directory
  | bytes (content : List UInt8)
  deriving DecidableEq, Repr

/-- Why a file has no text. -/
inductive FileError where
  | notFound
  | isDirectory
  | invalidText
  deriving DecidableEq, Repr

/-- the error in words -/
def FileError.message (path : String) : FileError → String
  | .notFound => s!"Error: file not found: {path}"
  | .isDirectory => s!"Error reading {path}: Is a directory (os error 21)"
  | .invalidText => s!"Error reading {path}: stream did not contain valid UTF-8"

def File.text : File → Except FileError String
  | .missing => .error .notFound
  | .directory => .error .isDirectory
  | .bytes content =>
    match Utf8.decode? content with
    | none => .error .invalidText
    | some text => .ok text

end TemplateCheck.Command
