namespace ClientTable.Float

/-- The bit pattern of the double-precision number with the given sign bit, biased exponent and
fraction. -/
def pack (sign exponent fraction : Nat) : BitVec 64 :=
  BitVec.ofNat 64 (sign <<< 63 + exponent <<< 52 + fraction)

/-- The double-precision bit pattern of the number that a single-precision bit pattern stands for.
An infinity stays one, and so does what is no number. -/
def widen (bits : BitVec 32) : BitVec 64 :=
  let sign := (bits >>> 31).toNat
  let exponent := ((bits >>> 23).setWidth 8).toNat
  let fraction := (bits.setWidth 23).toNat
  if exponent = 255 then pack sign 2047 (fraction <<< 29)
  else if exponent ≠ 0 then pack sign (exponent + 896) (fraction <<< 29)
  else if fraction = 0 then pack sign 0 0
  else
    let top := Nat.log2 fraction
    pack sign (top + 874) ((fraction - 1 <<< top) <<< (52 - top))

end ClientTable.Float
