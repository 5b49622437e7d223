import OsmImport.Types

/-!
# The lines of the airports tables

`parseCsvLineAP`, which takes a line of a downloaded table apart.
-/

namespace OsmImport

namespace AirportsLoader

/-- The comma. -/
def COMMA : UInt8 := 0x2C

/-- The quotation mark. -/
def QUOTE : UInt8 := 0x22

/-- The loop over the characters from `line[i]` on. -/
def scan (fields : List Str) (field : Str) : Bool → Str → List Str
  | _, [] => fields ++ [field]
  | true, c :: rest =>
    if c = QUOTE then
      -- `line[i+1]` is looked at only if it is there
      match rest with
      | [] => scan fields field false []
      | d :: rest' =>
        if d = QUOTE then scan fields (field ++ [QUOTE]) true rest' else scan fields field false (d :: rest')
    else scan fields (field ++ [c]) true rest
  | false, c :: rest =>
    if c = QUOTE then scan fields field true rest
    else if c = COMMA then scan (fields ++ [field]) [] false rest
    else scan fields (field ++ [c]) false rest

/-- `parseCsvLineAP`. -/
def parseCsvLineAP (line : Str) : List Str := scan [] [] false line

end AirportsLoader

end OsmImport
