import SingleFile.Compiling.Output
import SingleFile.Css.Printer

/-!
# Compiling styles

A plain style sheet is read and printed again; its class map gives each class its own name.  Any
other language needs a preprocessor, of which there is none here.
-/

namespace SingleFile.Css

/-- Compiles a style.  What cannot be compiled is kept as it is. -/
def compile (lang : Option String) (file source : String) : StyleOutput :=
  match lang.filter (· ≠ "css") with
  | some lang =>
    ⟨source, ["No preprocessor available for lang=\"" ++ lang ++ "\" in " ++ file]⟩
  | none =>
    match StyleSheet.parse source with
    | some sheet => ⟨Printer.styleSheet sheet, []⟩
    | none => ⟨source, ["CSS parse error: invalid style sheet"]⟩

/-- The classes of a style sheet as an object, each mapped to itself; nothing where the style sheet
is at fault. -/
def classMap? (css : String) : Option Json :=
  (StyleSheet.parse css).map fun sheet =>
    .object (sheet.classNames.map fun n => (n, .string n))

end SingleFile.Css
