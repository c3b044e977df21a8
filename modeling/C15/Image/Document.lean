/-
The file of an image: a JSON object with the members `stack`, `regions` and `readRegions`, the last a list of objects
with `address` and `name`. All numbers are words.
-/
import C15.Image
import C15.Json.Parser
import C15.Json.Printer

namespace C15

/-- a word of a document -/
def Json.word? (j : Json) : Option UInt32 :=
  j.nat?.bind fun n => if n < 0x100000000 then some (UInt32.ofNat n) else none

def Json.ofWord (w : UInt32) : Json := .ofNat w.toNat

namespace ReadRegion

def toJson (r : ReadRegion) : Json :=
  .object [(some "address", .ofWord r.address), (some "name", .ofString r.name)]

def ofJson? (j : Json) : Option ReadRegion :=
  match j.fields? ["address", "name"] with
  | some [address, name] => do return ⟨← address.word?, ← name.string?⟩
  | _ => none

end ReadRegion

namespace Image

def toJson (a : Image) : Json :=
  .object [
    (some "stack", .array (a.stack.map Json.ofWord)),
    (some "regions", .array (a.regions.map Json.ofWord)),
    (some "readRegions", .array (a.reads.map ReadRegion.toJson))]

def ofJson? (j : Json) : Option Image :=
  match j.fields? ["stack", "regions", "readRegions"] with
  | some [stack, regions, reads] => do
    return {
      stack := ← (← stack.array?).mapM Json.word?
      regions := ← (← regions.array?).mapM Json.word?
      reads := ← (← reads.array?).mapM ReadRegion.ofJson? }
  | _ => none

/-- the text of the file -/
def print (a : Image) : String := String.ofList (a.toJson.print 0)

/-- the image that a file holds -/
def parse? (text : String) : Option Image := (Json.parse? text.toList).bind ofJson?

end Image

end C15
