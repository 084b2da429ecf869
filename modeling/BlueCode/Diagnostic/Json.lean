import BlueCode.Diagnostic
import BlueCode.Json.Printer
import BlueCode.Text.Lines

namespace BlueCode

namespace Json

def ofNat (n : Nat) : Json :=
  number (String.ofList (Nat.toDigits 10 n))

end Json

open Json

/-- Line and column are given if the source is known. -/
def Label.toJson (label : Label) (source : Option String) : Json :=
  let place := source.map fun s => Text.placeOf s label.span.start
  record <|
    (place.toList.map fun p => ("col", ofNat p.column)) ++
    [("end", ofNat label.span.stop)] ++
    (place.toList.map fun p => ("line", ofNat p.line)) ++
    [("message", text label.message), ("start", ofNat label.span.start)]

namespace Diagnostic

def toJson (d : Diagnostic) : Json :=
  record <|
    (d.code.toList.map fun code => ("code", text code)) ++
    (d.label.toList.map fun label => ("label", label.toJson d.source)) ++
    [("message", text d.message), ("notes", array (d.notes.map text)),
     ("severity", text "error")] ++
    (d.suggestion.toList.map fun s => ("suggestion", text s))

def jsonLine (d : Diagnostic) : String :=
  d.toJson.render .compact

end Diagnostic

end BlueCode
