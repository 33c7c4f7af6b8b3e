import CallGrammar.Diagnostic
import CallGrammar.Diagnostic.Excerpt

namespace CallGrammar

open Text

namespace Diagnostic

def heading (word : String) (wordTone : Tone) (text : String) (textTone : Tone) : List Row :=
  let mark : Row := .ofChars wordTone word.toList
  match text.splitOn "\n" with
  | [] => [mark]
  | first :: rest =>
      (mark ++ Row.ofChars textTone (": " ++ first).toList)
        :: rest.map fun line => Row.ofChars textTone (List.replicate (word.length + 2) ' ' ++ line.toList)

def errorHeading (message : String) : List Row := heading "error" .error (printable message) .title

def pathRow (digits : Nat) (path : String) (m : Mark) : Row :=
  (Row.blanks digits ++ Row.ofChars .gutter "--> ".toList)
    ++ Row.ofChars .plain (printable path ++ ":" ++ toString m.line ++ ":" ++ toString (m.startChar + 1)).toList

def rows (path : Option String) (source : String) (d : Diagnostic) : List Row :=
  let lines := SourceLine.ofText source
  let mark := fun (span : Span) => Mark.ofSpan lines (Mark.widen source.utf8ByteSize span)
  let primary := mark d.span none true
  let shown : Excerpt := ⟨lines, primary :: d.related.map fun r => mark r.span (some r.text) false⟩
  let again : Excerpt := ⟨lines, [mark d.span none false]⟩
  let digits := (toString shown.lastNumber).length
  let hints := d.hints.flatMap fun hint => heading "help" .help hint .plain ++ again.rows digits
  let error := errorHeading d.message ++ (path.toList.map fun p => pathRow digits p primary) ++ shown.rows digits
  if hints.isEmpty then error else error ++ (⟨digits, 0⟩ : Margin).bare :: hints

def annotated (colored : Bool) (path : Option String) (source : String) (d : Diagnostic) : String :=
  "\n".intercalate ((d.rows path source).map (·.render colored))

def annotatedAll (colored : Bool) (path : Option String) (source : String) (ds : List Diagnostic) : String :=
  "\n".intercalate (ds.map (annotated colored path source))

end Diagnostic

end CallGrammar
