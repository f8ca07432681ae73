/-! What a program has printed, up to a number of bytes. -/
namespace Persona

/-- Once something did not fit nothing more is taken. -/
structure Output where
  cap : Nat
  text : String := ""
  isTruncated : Bool := false

namespace Output

/-- Puts as many characters behind a text as fit into `room` bytes. -/
def fill (text : String) (room : Nat) : List Char → String
  | [] => text
  | c :: cs => if c.utf8Size ≤ room then fill (text.push c) (room - c.utf8Size) cs else text

def write (o : Output) (s : String) : Output :=
  let room := o.cap - o.text.utf8ByteSize
  if o.isTruncated then o
  else if s.utf8ByteSize ≤ room then { o with text := o.text ++ s }
  else { o with text := fill o.text room s.toList, isTruncated := true }

end Output

end Persona
