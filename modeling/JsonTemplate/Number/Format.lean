import JsonTemplate.Number.Shortest

namespace JsonTemplate.Number

/-- How a decimal is laid out. Positional notation is used while the exponent of the leading digit
lies from `least` to `greatest`. -/
structure Layout where
  least : Int
  greatest : Int
  fraction : Bool
  tie : Tie

/-- The form of templates and expressions: positional from 1e-6 up to 1e21. -/
def Layout.plain : Layout := ⟨-6, 20, false, .up⟩

/-- The form of JSON documents: positional from 1e-5 up to 1e16, and always marked as a double. -/
def Layout.json : Layout := ⟨-5, 15, true, .even⟩

def exponentText (e : Int) : List Char :=
  (if e < 0 then '-' else '+') :: Nat.toDigits 10 e.natAbs

def Layout.body (layout : Layout) (digits : List Char) (leading : Int) : List Char :=
  if layout.least ≤ leading ∧ leading ≤ layout.greatest then
    if leading < 0 then
      '0' :: '.' :: (List.replicate (-leading - 1).toNat '0' ++ digits)
    else
      let whole := leading.toNat + 1
      if digits.length ≤ whole then
        digits ++ List.replicate (whole - digits.length) '0'
          ++ (if layout.fraction then ['.', '0'] else [])
      else digits.take whole ++ '.' :: digits.drop whole
  else
    match digits with
    | [] => []
    | [d] => d :: 'e' :: exponentText leading
    | d :: rest => d :: '.' :: rest ++ 'e' :: exponentText leading

def Layout.signed (layout : Layout) (negative : Bool) (d : Decimal) : List Char :=
  let body := layout.body d.digits d.leading
  if negative then '-' :: body else body

/-- The text of a double in templates and expressions. Both zeros read `0`. -/
def formatNumber (x : Float) : String :=
  match Double.parts x with
  | .nan => "NaN"
  | .infinite negative => if negative then "-Infinity" else "Infinity"
  | .finite negative m e =>
    if m = 0 then "0"
    else String.ofList (Layout.plain.signed negative (Decimal.shortest Layout.plain.tie m e))

def formatJson (x : Float) : String :=
  match Double.parts x with
  | .finite negative m e =>
    if m = 0 then if negative then "-0.0" else "0.0"
    else String.ofList (Layout.json.signed negative (Decimal.shortest Layout.json.tie m e))
  | _ => "null"

end JsonTemplate.Number
