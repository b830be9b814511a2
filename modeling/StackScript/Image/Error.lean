import StackScript.Image.Tag
import StackScript.Text.Quoted

/-!
# Why an image cannot be written or read
-/

namespace StackScript.Image

/-- The number of levels to which values may nest in an image. -/
def maxDepth : Nat := 256

/-- The causes for which writing or reading an image fails. -/
inductive Error where
  | sinkFull
  | unexpectedEnd (offset needed : Nat)
  | unknownTag (tag : UInt8) (offset : Nat)
  | invalidText (offset : Nat)
  | invalidChar (code : UInt32)
  | invalidFlag (byte : UInt8) (offset : Nat)
  | native (name : String)
  | marksMismatch (code marks : Nat)
  | trailing (count : Nat)
  | tooLarge (part : Part)
  | tooDeep
  deriving DecidableEq, Repr

def Error.message : Error → String
  | .sinkFull => "I/O error: limit reached"
  | .unexpectedEnd offset needed =>
    "unexpected end of input at offset " ++ toString offset ++ " (needed " ++ toString needed ++
      " more bytes)"
  | .unknownTag tag offset =>
    "unknown value tag " ++ toString tag.toNat ++ " at offset " ++ toString offset
  | .invalidText offset => "invalid UTF-8 in string at offset " ++ toString offset
  | .invalidChar code => "invalid char 0x" ++ Text.hex code.toNat
  | .invalidFlag byte offset =>
    "invalid flag byte " ++ toString byte.toNat ++ " at offset " ++ toString offset
  | .native name => "native function `" ++ name ++ "` cannot be serialized"
  | .marksMismatch code marks =>
    "metadata has " ++ toString marks ++ " entries for " ++ toString code ++ " code bytes"
  | .trailing count => toString count ++ " trailing bytes after chunk"
  | .tooLarge part => part.name ++ " too large to encode"
  | .tooDeep => "values nested deeper than " ++ toString maxDepth ++ " levels"

end StackScript.Image
