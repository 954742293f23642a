import SingleFile.Digest.Md5
import SingleFile.Digest.Sha256
import SingleFile.Json.Writer
import SingleFile.Settings.Basic

/-!
# Cache keys

A key for the result of a transformation.  All that the key covers is written one after the other,
each part ended by a zero; the text that comes out is digested twice.  Roots of projects are texts
here, so the configuration can always be written as JSON, and a key never falls back on another
way to write it, as it would for a root that is no Unicode.
-/

namespace SingleFile.CacheKey

/-- The version of the transformation, which changes its results. -/
def version : String := "0.1.0"

def parts (source file : String) (settings : Settings) : List String :=
  [version, source, file, settings.projectText, settings.project.toJson.compact,
   if settings.instrument then "instrument" else "", if settings.esm then "esm" else "cjs"]

def message (source file : String) (settings : Settings) : List Char :=
  (parts source file settings).flatMap fun part => part.toList ++ ['\x00']

def digested (source file : String) (settings : Settings) : List UInt8 :=
  (String.ofList (message source file settings)).toUTF8.toList

def ofFile (source file : String) (settings : Settings) : String :=
  Digest.hexText (Digest.Md5.digest (Digest.Sha256.digest (digested source file settings)))

end SingleFile.CacheKey
