import LayeredConfig.Decimal.Shortest

/-!
# Writing a double

A `Layout` holds the decisions that shortest digits leave open: where positional notation ends,
and how the values without digits are spelt.
-/

namespace LayeredConfig.Binary64

/-- How a double is written. -/
structure Layout where
  /-- The least decimal exponent written positionally, the number being below `10 ^ exponent`. -/
  positionalFrom : Int
  /-- The greatest decimal exponent written positionally. -/
  positionalTo : Int
  /-- Whether a whole number written positionally ends in `.0`. -/
  pointZero : Bool := true
  /-- The text of infinity, without a sign. -/
  infinityText : String
  /-- The text of the number without value. -/
  nanText : String

/-- What follows the digits of a whole number. -/
def Layout.wholeEnd (layout : Layout) : List Char := if layout.pointZero then ['.', '0'] else []

/-- A layout's spelling of a decimal `digits * 10 ^ scale` without a sign. -/
def Layout.decimal (layout : Layout) (digits : Nat) (scale : Int) : List Char :=
  let ds := Nat.toDigits 10 digits
  let point : Int := ds.length + scale
  if 0 ≤ scale ∧ point ≤ layout.positionalTo then
    ds ++ List.replicate scale.toNat '0' ++ layout.wholeEnd
  else if 0 < point ∧ point ≤ layout.positionalTo then
    ds.take point.toNat ++ '.' :: ds.drop point.toNat
  else if layout.positionalFrom ≤ point ∧ point ≤ 0 then
    '0' :: '.' :: List.replicate (-point).toNat '0' ++ ds
  else
    let fraction := ds.drop 1
    ds.take 1 ++ (if fraction.isEmpty then [] else '.' :: fraction)
      ++ 'e' :: (toString (point - 1)).toList

/-- The text of a double. -/
def Layout.render (layout : Layout) : Binary64 → String
  | .nan => layout.nanText
  | .infinity negative => if negative then "-" ++ layout.infinityText else layout.infinityText
  | .finite negative mantissa exponent =>
    let magnitude :=
      if mantissa = 0 then '0' :: layout.wholeEnd
      else
        let (digits, scale) := shortest mantissa exponent
        layout.decimal digits scale
    String.ofList (if negative then '-' :: magnitude else magnitude)

end LayeredConfig.Binary64
