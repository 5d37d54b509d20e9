import MachineSynth.Text.Source
import MachineSynth.Text.Line

/-! Syntax errors: a message about a span of a source, and the report that shows the span. -/
namespace MachineSynth

structure SyntaxError where
  source : Source
  span : Span
  message : String
deriving DecidableEq, Repr

namespace SyntaxError

def text (e : SyntaxError) : String :=
  s!"{e.source.name}:{e.span.start}:{e.span.stop}:{e.message}"

def line (e : SyntaxError) : Line := Line.enclosing e.source.text e.span.start

/-- How far into its line the error starts. -/
def column (e : SyntaxError) : Int := distance e.line.start e.span.start

/-- How many code points are underlined: those of the span on its first line, at least one. -/
def underlined (e : SyntaxError) : Int :=
  max (min (e.line.length - e.column) e.span.length) 1

def longestText : Int := 281474976710656

/-- The report: place and message, then the line with the span underlined. The margin before the
carets may go past the end of the line, but not past that of any text. -/
def report (e : SyntaxError) : Except Fault String :=
  if e.column < 0 then .error .negativeMargin
  else if e.line.length < e.column ∧ longestText ≤ e.column then .error .endlessMargin
  else
    let first := e.column + 1
    let last := first + e.underlined
    let place := s!"{e.source.name}:{e.line.number}:{first}-{last} {e.message}\n\n"
    let margin := List.replicate e.column.toNat ' '
    let carets := List.replicate e.underlined.toNat '^'
    .ok (place ++ String.ofList (e.line.text ++ '\n' :: margin ++ carets ++ ['\n']))

end SyntaxError
end MachineSynth
