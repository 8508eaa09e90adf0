import ChordGrammar.Text.Pattern

/-! Patterns that a reader does not lose texts of. A reader that never comes back may take the
wrong alternative, or repeat once too often, and then fail on a text that has a derivation.
It does not if the next letter settles each of its decisions: then it finds each derivation
again from its text, so that no text has two. -/
namespace ChordGrammar

namespace Derivation

variable {p : Pattern}

theorem text_eq_nil {d : Derivation p} (text : d.text = []) : p.nullable = true := by
  induction d with
  | one => cases text
  | seq first second ih ih' =>
    obtain ⟨left, right⟩ := List.append_eq_nil_iff.mp text
    simp [Pattern.nullable, ih left, ih' right]
  | left choice ih => simp [Pattern.nullable, ih text]
  | right choice ih => simp [Pattern.nullable, ih text]
  | skip | take | stop | next => rfl

theorem text_eq_cons {d : Derivation p} {c : Char} {cs : List Char} (text : d.text = c :: cs) :
    p.first.has c = true := by
  induction d generalizing cs with
  | one letter accepted =>
    cases text
    exact accepted
  | seq first second ih ih' =>
    simp only [Pattern.first]
    rcases List.append_eq_cons_iff.mp text with ⟨empty, text⟩ | ⟨_, text, -⟩
    · rw [if_pos (text_eq_nil empty), Letters.has_union, ih' text, Bool.or_true]
    · split
      · rw [Letters.has_union, ih text, Bool.true_or]
      · exact ih text
  | left choice ih => rw [Pattern.first, Letters.has_union, ih text, Bool.true_or]
  | right choice ih => rw [Pattern.first, Letters.has_union, ih text, Bool.or_true]
  | skip | stop => cases text
  | take choice ih => exact ih text
  | next first others ih ih' =>
    rcases List.append_eq_cons_iff.mp text with ⟨-, text⟩ | ⟨_, text, -⟩
    · exact ih' text
    · exact ih text

theorem has_of_mem_text {d : Derivation p} {c : Char} (member : c ∈ d.text) :
    p.letters.has c = true := by
  induction d with
  | one letter accepted =>
    obtain rfl := List.mem_singleton.mp member
    exact accepted
  | seq first second ih ih' =>
    rw [Pattern.letters, Letters.has_union]
    rcases List.mem_append.mp member with member | member
    · rw [ih member, Bool.true_or]
    · rw [ih' member, Bool.or_true]
  | left choice ih => rw [Pattern.letters, Letters.has_union, ih member, Bool.true_or]
  | right choice ih => rw [Pattern.letters, Letters.has_union, ih member, Bool.or_true]
  | skip | stop => cases member
  | take choice ih => exact ih member
  | next first others ih ih' =>
    rcases List.mem_append.mp member with member | member
    · exact ih member
    · exact ih' member

theorem begin_text_append {follow : Letters} {rest : List Char} (after : follow.Begin rest)
    (d : Derivation p) : (p.leads follow).Begin (d.text ++ rest) := by
  intro c begins
  cases text : d.text with
  | nil =>
    rw [text] at begins
    rw [Pattern.leads, if_pos (text_eq_nil text), Letters.has_union, after c begins, Bool.or_true]
  | cons letter cs =>
    rw [text] at begins
    cases begins
    unfold Pattern.leads
    split
    · rw [Letters.has_union, text_eq_cons text, Bool.true_or]
    · exact text_eq_cons text

end Derivation

namespace Pattern

variable {p q : Pattern} {cs rest : List Char} {follow letters : Letters}

theorem repeatedly_of_none {step : List Char → Option (Derivation p × List Char)}
    (fails : step cs = none) : repeatedly step cs = (.stop, cs) := by
  rw [repeatedly, fails]

theorem repeatedly_of_some {step : List Char → Option (Derivation p × List Char)}
    {first : Derivation p} (takes : step cs = some (first, rest)) (less : rest.length < cs.length) :
    repeatedly step cs = (.next first (repeatedly step rest).1, (repeatedly step rest).2) := by
  rw [repeatedly, takes]
  exact if_pos less

theorem repeatedly_text {step : List Char → Option (Derivation p × List Char)}
    (sound : ∀ cs d rest, step cs = some (d, rest) → d.text ++ rest = cs) (cs : List Char) :
    (repeatedly step cs).1.text ++ (repeatedly step cs).2 = cs := by
  fun_induction repeatedly step cs with
  | case1 cs fails => rfl
  | case2 cs first rest takes less others last again ih =>
    rw [again] at ih
    rw [Derivation.text, List.append_assoc, ih, sound cs first rest takes]
  | case3 => rfl

theorem text_of_read? {d : Derivation p} (read : p.read? cs = some (d, rest)) :
    d.text ++ rest = cs := by
  induction p generalizing cs rest with
  | one letters =>
    cases cs with
    | nil => cases read
    | cons c cs =>
      rw [read?] at read
      split at read
      · cases read
        rfl
      · cases read
  | seq p q ih ih' =>
    obtain ⟨⟨first, between⟩, readFirst, read⟩ := Option.bind_eq_some_iff.mp read
    obtain ⟨⟨second, _⟩, readSecond, read⟩ := Option.bind_eq_some_iff.mp read
    cases read
    rw [Derivation.text, List.append_assoc, ih' readSecond, ih readFirst]
  | alt p q ih ih' =>
    rw [read?] at read
    split at read
    · next choice _ chosen =>
      cases read
      exact ih chosen
    · obtain ⟨⟨choice, _⟩, chosen, read⟩ := Option.bind_eq_some_iff.mp read
      cases read
      exact ih' chosen
  | opt p ih =>
    rw [read?] at read
    split at read
    · next choice _ chosen =>
      cases read
      exact ih chosen
    · cases read
      rfl
  | many p ih =>
    have taken := repeatedly_text (fun _ _ _ => ih) cs
    rwa [Option.some.inj read] at taken

/-- A pattern is not read where a text goes on with other letters than it begins with. -/
theorem read?_eq_none (needed : p.nullable = false) (apart : p.first.apart letters = true)
    (begins : letters.Begin cs) : p.read? cs = none := by
  cases read : p.read? cs with
  | none => rfl
  | some result =>
    obtain ⟨d, rest⟩ := result
    obtain rfl := text_of_read? read
    cases text : d.text with
    | nil =>
      rw [Derivation.text_eq_nil text] at needed
      cases needed
    | cons c others =>
      have outside := Letters.not_has_of_apart apart (Derivation.text_eq_cons text)
      rw [begins c (by rw [text]; rfl)] at outside
      cases outside

/-- Whether the reader finds every derivation again, when the text goes on as said. -/
def ReadsBack (p : Pattern) (follow : Letters) : Prop :=
  ∀ (d : Derivation p) (rest : List Char), follow.Begin rest →
    p.read? (d.text ++ rest) = some (d, rest)

theorem ReadsBack.one : (Pattern.one letters).ReadsBack follow
  | .one _ accepted, _, _ => dif_pos accepted

theorem ReadsBack.seq (first : p.ReadsBack (q.leads follow)) (second : q.ReadsBack follow) :
    (Pattern.seq p q).ReadsBack follow
  | .seq d e, rest, after => by
    rw [Derivation.text, List.append_assoc, read?,
      first d (e.text ++ rest) (e.begin_text_append after)]
    show (q.read? (e.text ++ rest)).bind _ = _
    rw [second e rest after]
    rfl

/-- It is enough that the first alternative does not take a beginning of the second. -/
theorem ReadsBack.alt (first : p.ReadsBack follow) (second : q.ReadsBack follow)
    (refused : ∀ (e : Derivation q) rest, follow.Begin rest → p.read? (e.text ++ rest) = none) :
    (Pattern.alt p q).ReadsBack follow
  | .left d, rest, after => by rw [Derivation.text, read?, first d rest after]
  | .right e, rest, after => by
    rw [Derivation.text, read?, refused e rest after, second e rest after]
    rfl

theorem ReadsBack.opt (needed : p.nullable = false) (apart : p.first.apart follow = true)
    (choice : p.ReadsBack follow) : (Pattern.opt p).ReadsBack follow
  | .skip, rest, after => by
    rw [Derivation.text, List.nil_append, read?, read?_eq_none needed apart after]
  | .take d, rest, after => by rw [Derivation.text, read?, choice d rest after]

theorem ReadsBack.many (needed : p.nullable = false) (apart : p.first.apart follow = true)
    (each : p.ReadsBack (p.first.union follow)) : (Pattern.many p).ReadsBack follow
  | .stop, rest, after => by
    rw [Derivation.text, List.nil_append, read?,
      repeatedly_of_none (read?_eq_none needed apart after)]
  | .next d ds, rest, after => by
    have again := ReadsBack.many needed apart each ds rest after
    have takes := each d (ds.text ++ rest) (ds.begin_text_append after)
    have less : (ds.text ++ rest).length < (d.text ++ (ds.text ++ rest)).length := by
      have taken : d.text ≠ [] := fun empty => by
        rw [Derivation.text_eq_nil empty] at needed
        cases needed
      have some := List.length_pos_iff.mpr taken
      simp only [List.length_append]
      omega
    rw [read?, Option.some.injEq] at again
    rw [Derivation.text, List.append_assoc, read?, repeatedly_of_some takes less, again]

/-- Where the next letter settles every decision, nothing is lost. -/
theorem readsBack_of_predictive (settled : p.predictive follow = true) : p.ReadsBack follow := by
  induction p generalizing follow with
  | one letters => exact .one
  | seq p q ih ih' =>
    simp only [predictive, Bool.and_eq_true] at settled
    exact .seq (ih settled.1) (ih' settled.2)
  | alt p q ih ih' =>
    simp only [predictive, Bool.and_eq_true, Bool.not_eq_true'] at settled
    obtain ⟨⟨⟨⟨needed, needed'⟩, apart⟩, settled⟩, settled'⟩ := settled
    refine .alt (ih settled) (ih' settled') fun e rest after => ?_
    have begins := e.begin_text_append after
    rw [leads, needed'] at begins
    exact read?_eq_none needed apart begins
  | opt p ih =>
    simp only [predictive, Bool.and_eq_true, Bool.not_eq_true'] at settled
    obtain ⟨⟨needed, apart⟩, settled⟩ := settled
    exact .opt needed apart (ih settled)
  | many p ih =>
    simp only [predictive, Bool.and_eq_true, Bool.not_eq_true'] at settled
    obtain ⟨⟨needed, apart⟩, settled⟩ := settled
    exact .many needed apart (ih settled)

end Pattern
end ChordGrammar
