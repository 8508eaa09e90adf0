import ChordGrammar.Turtle

/-! The commands that a production is made of. Their tokens are, in this order, `[`, `]`,
`D*n`, `Iv=i` (instrument `i` plays voice `v`), `K`, `L*n`, `On`, `P=name` or `P(pcs)`, `Qn`,
`Rn`, `S(pcs)`, `Tn`, `V+n`, and `Wn` or, for copies that are not voice-led, `WCn`. Any other
token is unknown and does nothing. -/
namespace ChordGrammar

inductive Command (α : Type) [Scalar α] where
  | push
  | pop
  | duration (scaling : Scaling α)
  | instrument (voice instrument : Nat)
  | exchange
  | loudness (scaling : Scaling α)
  | overlap (n : α)
  | prime (chord : PitchClassSet α)
  | contextualTranspose (n : α)
  | range (n : α)
  | set (chord : PitchClassSet α)
  | transpose (n : α)
  | revoice (n : Int64)
  | write (copies : Nat) (voiceLead : Bool)
  | unknown

end ChordGrammar
