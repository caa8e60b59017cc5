import Mixsheet.Argument.Grouped
import Mixsheet.Argument.Scan

/-! # The arguments of a call

The tokens behind the name of a mixin call, up to its semicolon, as arguments. White space and comments
at the ends do not count. One `( … )` token is cut at its commas; anything else is scanned, without
the parentheses around it. -/

namespace Mixsheet.Argument

/-- A run of tokens without a parenthesis that ends it. -/
def dropClosing (ts : List Token) : List Token :=
  if ts.getLast?.any (·.kind == .rightParen) then ts.dropLast else ts

/-- The arguments that a run of tokens stands for. -/
def ofTokens (ts : List Token) : List Argument :=
  match Token.trimTrivia ts with
  | [] => []
  | t :: rest =>
    if t.kind = .brackets ∧ rest = [] then Grouped.arguments t.text
    else if t.kind = .leftParen then Scan.arguments (dropClosing rest)
    else Scan.arguments (t :: rest)

end Mixsheet.Argument
