import ChordGrammar.Command.Reader
import ChordGrammar.Proofs.DepthFirst
import ChordGrammar.Proofs.Numerals

/-! Reading and the grammar. A token is a command exactly if the grammar has a derivation of
all of it that is admissible, and then there is one derivation and the command is the one it
stands for. Trying the rules in order without coming back finds the same derivation. -/
namespace ChordGrammar

open Scalar

namespace Derivation

open Pattern Command

variable {α : Type} [Scalar α]

theorem text_ne_nil {p : Pattern} (needed : p.nullable = false) (d : Derivation p) :
    d.text ≠ [] := fun empty => by
  rw [text_eq_nil empty] at needed
  cases needed

theorem number?_text (d : Derivation number) : number? d.text = some (d.scalar : α) := by
  rw [number?, read?_text]
  rfl

theorem exists_of_number? {cs : List Char} {n : α} (read : number? cs = some n) :
    ∃ d : Derivation number, d.text = cs := by
  obtain ⟨n, read, -⟩ := Option.map_eq_some_iff.mp read
  exact exists_of_read? read

theorem not_mem_text {p : Pattern} {letter : Char} (without : p.letters.has letter = false)
    (d : Derivation p) : letter ∉ d.text := fun member => by
  rw [has_of_mem_text member] at without
  cases without

theorem not_separates {cs : List Char} {letter : Char} (missing : letter ∉ cs) :
    ∀ c ∈ cs, decide (c = letter) = false := fun _ member =>
  decide_eq_false fun same => missing (same ▸ member)

theorem exists_of_map {β γ : Type} {p : Pattern} {f : List Char → Option β} {g : β → γ}
    {cs : List Char} {c : γ}
    (origin : ∀ {cs : List Char} {b : β}, f cs = some b → ∃ d : Derivation p, d.text = cs)
    (read : (f cs).map g = some c) : ∃ d : Derivation p, d.text = cs := by
  obtain ⟨b, read, -⟩ := Option.map_eq_some_iff.mp read
  exact origin read

/-! ### Lists of numbers -/

/-- Numbers are found again between their commas. -/
theorem numbers?_splitAt (first : Derivation number) :
    (rest : Derivation (.many (.seq (char ',') number))) →
      (splitAt (· = ',') (first.text ++ rest.text)).mapM number? =
        some ((first.decimal :: rest.others).map (ofDecimal : Decimal → α))
  | .stop => by
    rw [text, List.append_nil, splitAt_of_not_separates (not_separates (not_mem_text rfl first))]
    simp [number?_text, scalar, others, each]
  | .next (.seq comma n) rest => by
    have found := numbers?_splitAt n rest
    have cut : decide (',' = ',') = true := rfl
    rw [text, text, text_char, List.append_assoc, List.singleton_append,
      splitAt_append (not_separates (not_mem_text rfl first)) cut, List.mapM_cons, found,
      number?_text]
    simp [scalar, others, each]

theorem numbers?_text : (d : Derivation (.opt numbers)) →
    numbers? d.text = some (d.elements.map (ofDecimal : Decimal → α))
  | .skip => rfl
  | .take (.seq first rest) => by
    have some : first.text ++ rest.text ≠ [] :=
      List.append_ne_nil_of_left_ne_nil (text_ne_nil rfl first) _
    show numbers? (first.text ++ rest.text) = _
    rw [numbers?, if_neg some, numbers?_splitAt, elements]

theorem exists_of_splitAt {cs : List Char} {ns : List α}
    (read : (splitAt (· = ',') cs).mapM number? = some ns) :
    ∃ (first : Derivation number) (rest : Derivation (.many (.seq (char ',') number))),
      first.text ++ rest.text = cs := by
  by_cases member : ',' ∈ cs
  · obtain ⟨before, after, rfl, missing⟩ := List.eq_append_cons_of_mem member
    have cut : decide (',' = ',') = true := rfl
    rw [splitAt_append (not_separates missing) cut, List.mapM_cons] at read
    obtain ⟨_, readFirst, read⟩ := Option.bind_eq_some_iff.mp read
    obtain ⟨_, readRest, -⟩ := Option.bind_eq_some_iff.mp read
    obtain ⟨first, rfl⟩ := exists_of_number? readFirst
    obtain ⟨next, rest, rfl⟩ := exists_of_splitAt readRest
    refine ⟨first, .next (.seq (.one ',' rfl) next) rest, ?_⟩
    simp [text]
  · rw [splitAt_of_not_separates (not_separates member), List.mapM_cons] at read
    obtain ⟨_, read, -⟩ := Option.bind_eq_some_iff.mp read
    obtain ⟨first, rfl⟩ := exists_of_number? read
    exact ⟨first, .stop, List.append_nil _⟩
termination_by cs.length

theorem exists_of_numbers? {cs : List Char} {ns : List α} (read : numbers? cs = some ns) :
    ∃ d : Derivation (.opt numbers), d.text = cs := by
  unfold numbers? at read
  split at read
  · next none => exact ⟨.skip, none.symm⟩
  · obtain ⟨first, rest, text⟩ := exists_of_splitAt read
    exact ⟨.take (.seq first rest), text⟩

theorem bracketed?_eq_some {cs inner : List Char} (read : bracketed? cs = some inner) :
    cs = '(' :: (inner ++ [')']) ∨ cs = '[' :: (inner ++ [']']) := by
  have ending {cs : List Char} {c : Char} (last : cs.getLast? = some c) :
      cs.dropLast ++ [c] = cs := by
    obtain ⟨front, rfl⟩ := List.getLast?_eq_some_iff.mp last
    rw [List.dropLast_concat]
  unfold bracketed? at read
  split at read
  · split at read
    · next last =>
      cases read
      exact .inl (by rw [ending last])
    · cases read
  · split at read
    · next last =>
      cases read
      exact .inr (by rw [ending last])
    · cases read
  · cases read

theorem bracketed?_number (d : Derivation number) : bracketed? d.text = none := by
  unfold bracketed?
  split
  · next same => cases text_eq_cons same
  · next same => cases text_eq_cons same
  · rfl

theorem chord?_text : (d : Derivation (.alt list number)) →
    chord? d.text = some (d.chord : PitchClassSet α)
  | .left (.left (.seq opening (.seq inner closing))) => by
    have within : bracketed? ('(' :: (inner.text ++ [')'])) = some inner.text := by
      simp [bracketed?]
    simp only [text, text_char, List.singleton_append, chord?, within, numbers?_text]
    rfl
  | .left (.right (.seq opening (.seq inner closing))) => by
    have within : bracketed? ('[' :: (inner.text ++ [']'])) = some inner.text := by
      simp [bracketed?]
    simp only [text, text_char, List.singleton_append, chord?, within, numbers?_text]
    rfl
  | .right pitch => by
    simp only [text, chord?, bracketed?_number, number?_text]
    rfl

theorem exists_of_chord? {cs : List Char} {chord : PitchClassSet α} (read : chord? cs = some chord) :
    ∃ d : Derivation (.alt list number), d.text = cs := by
  unfold chord? at read
  split at read
  · next inner within =>
    obtain ⟨d, rfl⟩ := exists_of_map exists_of_numbers? read
    rcases bracketed?_eq_some within with rfl | rfl
    · exact ⟨.left (.left (.seq (.one '(' rfl) (.seq d (.one ')' rfl)))), by simp [text]⟩
    · exact ⟨.left (.right (.seq (.one '[' rfl) (.seq d (.one ']' rfl)))), by simp [text]⟩
  · obtain ⟨d, rfl⟩ := exists_of_map exists_of_number? read
    exact ⟨.right d, rfl⟩

/-! ### The other operands -/

theorem scaling?_text : (d : Derivation Pattern.scaling) →
    scaling? d.text = some (d.scaling : Scaling α)
  | .seq (.left operator) .skip => by simp [text, scaling?, scaling, scalarOr]
  | .seq (.right operator) .skip => by simp [text, scaling?, scaling, scalarOr]
  | .seq (.left operator) (.take factor) => by
    obtain ⟨c, cs, factorText⟩ := List.exists_cons_of_ne_nil (text_ne_nil rfl factor)
    have read := number?_text (α := α) factor
    rw [factorText] at read
    simp [text, scaling?, scaling, scalarOr, factorText, read]
  | .seq (.right operator) (.take factor) => by
    obtain ⟨c, cs, factorText⟩ := List.exists_cons_of_ne_nil (text_ne_nil rfl factor)
    have read := number?_text (α := α) factor
    rw [factorText] at read
    simp [text, scaling?, scaling, scalarOr, factorText, read]

theorem exists_of_scaling? {cs : List Char} {s : Scaling α} (read : scaling? cs = some s) :
    ∃ d : Derivation Pattern.scaling, d.text = cs := by
  unfold scaling? at read
  split at read
  · exact ⟨.seq (.left (.one '*' rfl)) .skip, rfl⟩
  · exact ⟨.seq (.right (.one '/' rfl)) .skip, rfl⟩
  · obtain ⟨d, rfl⟩ := exists_of_map exists_of_number? read
    exact ⟨.seq (.left (.one '*' rfl)) (.take d), rfl⟩
  · obtain ⟨d, rfl⟩ := exists_of_map exists_of_number? read
    exact ⟨.seq (.right (.one '/' rfl)) (.take d), rfl⟩
  · cases read

theorem integer?_text (d : Derivation integer) :
    integer? d.text = if d.value < UInt64.size then some d.value else none := by
  rw [integer?, digits?_text, Option.filter_some, value]
  simp only [decide_eq_true_eq]

theorem exists_of_integer? {cs : List Char} {n : Nat} (read : integer? cs = some n) :
    ∃ d : Derivation integer, d.text = cs := by
  obtain ⟨read, -⟩ := Option.filter_eq_some_iff.mp read
  obtain ⟨d, text, -⟩ := exists_of_digits? read
  exact ⟨d, text⟩

theorem binding?_text (voice assigned : Derivation integer) :
    binding? (voice.text ++ '=' :: assigned.text) =
      if voice.value < UInt64.size ∧ assigned.value < UInt64.size then
        some (.instrument voice.value assigned.value : Command α)
      else none := by
  have before : ∀ c ∈ voice.text, decide (c ≠ '=') = true := by
    intro c member
    refine decide_eq_true ?_
    rintro rfl
    exact not_mem_text rfl voice member
  rw [binding?, List.dropWhile_append_of_pos before, List.takeWhile_append_of_pos before]
  by_cases small : voice.value < UInt64.size <;> by_cases small' : assigned.value < UInt64.size <;>
    simp [integer?_text, small, small']

theorem exists_of_binding? {cs : List Char} {command : Command α}
    (read : binding? cs = some command) :
    ∃ voice assigned : Derivation integer, voice.text ++ '=' :: assigned.text = cs := by
  unfold binding? at read
  split at read
  · next rest after =>
    obtain ⟨_, readVoice, read⟩ := Option.bind_eq_some_iff.mp read
    obtain ⟨_, readAssigned, -⟩ := Option.bind_eq_some_iff.mp read
    obtain ⟨voice, voiceText⟩ := exists_of_integer? readVoice
    obtain ⟨assigned, rfl⟩ := exists_of_integer? readAssigned
    refine ⟨voice, assigned, ?_⟩
    rw [voiceText, ← after, List.takeWhile_append_dropWhile]
  · cases read

theorem copies?_text : (d : Derivation (.opt integer)) →
    copies? d.text = d.copies
  | .skip => rfl
  | .take n => by
    show copies? n.text = _
    rw [copies?, if_neg (text_ne_nil rfl n), integer?_text]
    rfl

theorem exists_of_copies? {cs : List Char} {n : Nat} (read : copies? cs = some n) :
    ∃ d : Derivation (.opt integer), d.text = cs := by
  unfold copies? at read
  split at read
  · next none => exact ⟨.skip, none.symm⟩
  · obtain ⟨d, rfl⟩ := exists_of_integer? read
    exact ⟨.take d, rfl⟩

theorem exists_name {cs : List Char} (some : cs ≠ []) : ∃ d : Derivation name, d.text = cs := by
  obtain ⟨c, cs, rfl⟩ := List.exists_cons_of_ne_nil some
  have others (cs : List Char) : ∃ d : Derivation (.many (.one .all)), d.text = cs := by
    induction cs with
    | nil => exact ⟨.stop, rfl⟩
    | cons c cs ih =>
      obtain ⟨d, rfl⟩ := ih
      exact ⟨.next (.one c rfl) d, rfl⟩
  obtain ⟨d, rfl⟩ := others cs
  exact ⟨.seq (.one c rfl) d, rfl⟩

end Derivation

namespace Command.Tree

variable {α : Type} [Scalar α]

open ChordGrammar.Derivation

/-! An operand is read as it is where it is not taken for something else. -/

theorem read?_prime {cs : List Char} (unnamed : ∀ name, cs ≠ '=' :: name) :
    Command.read? ('P' :: cs) = (chord? cs).map (.prime : _ → Command α) := by
  rw [Command.read?]
  exact unnamed

theorem read?_transpose {cs : List Char} (some : cs ≠ []) :
    Command.read? ('T' :: cs) = (number? cs).map (.transpose : _ → Command α) := by
  rw [Command.read?]
  exact some

theorem read?_revoice {cs : List Char} (plus : cs ≠ ['+']) (minus : cs ≠ ['-']) :
    Command.read? ('V' :: cs) =
      (number? cs).map fun n : α => (.revoice (round n) : Command α) := by
  rw [Command.read?]
  · exact plus
  · exact minus

theorem read?_write {cs : List Char} (led : ∀ others, cs ≠ 'C' :: others) :
    Command.read? ('W' :: cs) = (copies? cs).map fun n => (.write n true : Command α) := by
  rw [Command.read?]
  exact led

/-- Each derivation is read as the command that it stands for, if it stands for one. -/
theorem read?_text : (tree : Tree) → Command.read? tree.text = (tree.command? : Option (Command α))
  | ⟨.push, d⟩ | ⟨.pop, d⟩ | ⟨.exchange, d⟩ => by
    rw [Tree.text, text_char]
    rfl
  | ⟨.duration, .seq _ scaling⟩ | ⟨.loudness, .seq _ scaling⟩ => by
    rw [Tree.text, text_char_seq, Command.read?, scaling?_text]
    rfl
  | ⟨.instrument, .seq _ (.seq voice (.seq _ assigned))⟩ => by
    rw [Tree.text, text_char_seq, Derivation.text, text_char_seq, Command.read?, binding?_text]
    rfl
  | ⟨.overlap, .seq _ n⟩ | ⟨.contextual, .seq _ n⟩ | ⟨.range, .seq _ n⟩ => by
    rw [Tree.text, text_char_seq, Command.read?, number?_text]
    rfl
  | ⟨.set, .seq _ chord⟩ => by
    rw [Tree.text, text_char_seq, Command.read?, chord?_text]
    rfl
  | ⟨.prime, .seq _ (.left (.seq _ name))⟩ => by
    rw [Tree.text, text_char_seq, Derivation.text, text_char_seq, Command.read?]
    rfl
  | ⟨.prime, .seq _ (.right chord)⟩ => by
    have unnamed : ∀ name, chord.text ≠ '=' :: name := fun name same => by
      cases text_eq_cons same
    rw [Tree.text, text_char_seq, Derivation.text, read?_prime unnamed, chord?_text]
    rfl
  | ⟨.transpose, .seq _ .skip⟩ => by
    rw [Tree.text, text_char_seq]
    rfl
  | ⟨.transpose, .seq _ (.take n)⟩ => by
    rw [Tree.text, text_char_seq, Derivation.text, read?_transpose (text_ne_nil rfl n), number?_text]
    rfl
  | ⟨.revoice, .seq _ (.left n)⟩ => by
    have unread {cs : List Char} (none : Decimal.read? cs = none) : n.text ≠ cs := by
      rintro rfl
      rw [Derivation.read?_text] at none
      cases none
    rw [Tree.text, text_char_seq, Derivation.text, read?_revoice (unread rfl) (unread rfl),
      number?_text]
    rfl
  | ⟨.revoice, .seq _ (.right (.one c accepted))⟩ => by
    have either : c = '+' ∨ c = '-' := by simpa [Letters.has] using accepted
    rw [Tree.text, text_char_seq]
    rcases either with rfl | rfl <;> rfl
  | ⟨.write, .seq _ (.seq .skip n)⟩ => by
    have led : ∀ others, n.text ≠ 'C' :: others := fun others same => by
      cases text_eq_cons same
    rw [Tree.text, text_char_seq, Derivation.text, Derivation.text, List.nil_append,
      read?_write led, copies?_text]
    rfl
  | ⟨.write, .seq _ (.seq (.take _) n)⟩ => by
    rw [Tree.text, text_char_seq, Derivation.text, Derivation.text, text_char,
      List.singleton_append, Command.read?, copies?_text]
    rfl

theorem exists_of_read? {cs : List Char} {command : Command α}
    (read : Command.read? cs = some command) : ∃ tree : Tree, tree.text = cs := by
  unfold Command.read? at read
  split at read
  case h_1 => exact ⟨⟨.push, .one '[' rfl⟩, rfl⟩
  case h_2 => exact ⟨⟨.pop, .one ']' rfl⟩, rfl⟩
  case h_3 =>
    obtain ⟨d, rfl⟩ := exists_of_map exists_of_scaling? read
    exact ⟨⟨.duration, .seq (.one 'D' rfl) d⟩, rfl⟩
  case h_4 =>
    obtain ⟨voice, assigned, rfl⟩ := exists_of_binding? read
    exact ⟨⟨.instrument, .seq (.one 'I' rfl) (.seq voice (.seq (.one '=' rfl) assigned))⟩, rfl⟩
  case h_5 => exact ⟨⟨.exchange, .one 'K' rfl⟩, rfl⟩
  case h_6 =>
    obtain ⟨d, rfl⟩ := exists_of_map exists_of_scaling? read
    exact ⟨⟨.loudness, .seq (.one 'L' rfl) d⟩, rfl⟩
  case h_7 =>
    obtain ⟨d, rfl⟩ := exists_of_map exists_of_number? read
    exact ⟨⟨.overlap, .seq (.one 'O' rfl) d⟩, rfl⟩
  case h_8 name =>
    have some : name ≠ [] := by
      rintro rfl
      cases read
    obtain ⟨d, rfl⟩ := exists_name some
    exact ⟨⟨.prime, .seq (.one 'P' rfl) (.left (.seq (.one '=' rfl) d))⟩, rfl⟩
  case h_9 =>
    obtain ⟨d, rfl⟩ := exists_of_map exists_of_chord? read
    exact ⟨⟨.prime, .seq (.one 'P' rfl) (.right d)⟩, rfl⟩
  case h_10 =>
    obtain ⟨d, rfl⟩ := exists_of_map exists_of_number? read
    exact ⟨⟨.contextual, .seq (.one 'Q' rfl) d⟩, rfl⟩
  case h_11 =>
    obtain ⟨d, rfl⟩ := exists_of_map exists_of_number? read
    exact ⟨⟨.range, .seq (.one 'R' rfl) d⟩, rfl⟩
  case h_12 =>
    obtain ⟨d, rfl⟩ := exists_of_map exists_of_chord? read
    exact ⟨⟨.set, .seq (.one 'S' rfl) d⟩, rfl⟩
  case h_13 => exact ⟨⟨.transpose, .seq (.one 'T' rfl) .skip⟩, rfl⟩
  case h_14 =>
    obtain ⟨d, rfl⟩ := exists_of_map exists_of_number? read
    exact ⟨⟨.transpose, .seq (.one 'T' rfl) (.take d)⟩, rfl⟩
  case h_15 => exact ⟨⟨.revoice, .seq (.one 'V' rfl) (.right (.one '+' rfl))⟩, rfl⟩
  case h_16 => exact ⟨⟨.revoice, .seq (.one 'V' rfl) (.right (.one '-' rfl))⟩, rfl⟩
  case h_17 =>
    obtain ⟨d, rfl⟩ := exists_of_map exists_of_number? read
    exact ⟨⟨.revoice, .seq (.one 'V' rfl) (.left d)⟩, rfl⟩
  case h_18 =>
    obtain ⟨d, rfl⟩ := exists_of_map exists_of_copies? read
    exact ⟨⟨.write, .seq (.one 'W' rfl) (.seq (.take (.one 'C' rfl)) d)⟩, rfl⟩
  case h_19 =>
    obtain ⟨d, rfl⟩ := exists_of_map exists_of_copies? read
    exact ⟨⟨.write, .seq (.one 'W' rfl) (.seq .skip d)⟩, rfl⟩
  case h_20 => cases read

theorem isSome_command?_iff : (tree : Tree) →
    ((tree.command? : Option (Command α)).isSome = true ↔ tree.Admissible)
  | ⟨.instrument, .seq _ (.seq voice (.seq _ assigned))⟩ => by
    rw [command?, Admissible]
    split
    · next small => exact iff_of_true rfl small
    · next large => exact iff_of_false nofun large
  | ⟨.prime, .seq _ (.left (.seq _ name))⟩ => by
    rw [command?, Admissible, PitchClassSet.ofName]
    cases named : chordOfName (trim name.text) with
    | error e => exact iff_of_false nofun fun ⟨_, known⟩ => by cases named.symm.trans known
    | ok chord => exact iff_of_true rfl ⟨chord, named⟩
  | ⟨.write, .seq _ (.seq _ (.take n))⟩ => by
    rw [command?, Admissible, Option.isSome_map, copies]
    split
    · next small => exact iff_of_true rfl small
    · next large => exact iff_of_false nofun large
  | ⟨.write, .seq _ (.seq _ .skip)⟩ => iff_of_true rfl trivial
  | ⟨.push, _⟩ | ⟨.pop, _⟩ | ⟨.exchange, _⟩ => iff_of_true rfl trivial
  | ⟨.duration, .seq _ _⟩ | ⟨.loudness, .seq _ _⟩ => iff_of_true rfl trivial
  | ⟨.overlap, .seq _ _⟩ | ⟨.contextual, .seq _ _⟩ | ⟨.range, .seq _ _⟩ => iff_of_true rfl trivial
  | ⟨.prime, .seq _ (.right _)⟩ | ⟨.set, .seq _ _⟩ => iff_of_true rfl trivial
  | ⟨.transpose, .seq _ _⟩ => iff_of_true rfl trivial
  | ⟨.revoice, .seq _ (.left _)⟩ | ⟨.revoice, .seq _ (.right _)⟩ => iff_of_true rfl trivial

/-! ### Trying the rules in order -/

theorem readsBack (rule : Rule) : rule.pattern.ReadsBack (.among []) := by
  cases rule with
  | revoice =>
    refine .seq .one (.alt (Pattern.readsBack_of_predictive rfl) .one ?_)
    rintro ⟨c, accepted⟩ rest ends
    have either : c = '+' ∨ c = '-' := by simpa [Letters.has] using accepted
    obtain rfl : rest = [] := by
      cases rest with
      | nil => rfl
      | cons letter rest => cases ends letter rfl
    rcases either with rfl | rfl <;> rfl
  | _ => exact Pattern.readsBack_of_predictive rfl

theorem pattern_apart {rule other : Rule} (differ : rule ≠ other) :
    rule.pattern.first.apart other.pattern.first = true := by
  cases rule <;> cases other <;> first | rfl | exact absurd rfl differ

theorem needed (rule : Rule) : rule.pattern.nullable = false := by
  cases rule <;> rfl

theorem mem_all (rule : Rule) : rule ∈ Rule.all := by
  cases rule <;> simp [Rule.all]

/-- Only the rule of the derivation fits the beginning of its text. -/
theorem read?_text_other (tree : Tree) {rule : Rule} (differ : rule ≠ tree.rule) :
    rule.pattern.read? tree.text = none := by
  apply Pattern.read?_eq_none (needed rule) (pattern_apart differ)
  have begins := tree.derivation.begin_text_append (Letters.begin_nil (.among []))
  rwa [List.append_nil, Pattern.leads, needed tree.rule] at begins

theorem findSome?_eq_some {β γ : Type} {f : β → Option γ} {b : β} {c : γ} {bs : List β}
    (member : b ∈ bs) (found : f b = some c) (only : ∀ other, other ≠ b → f other = none) :
    bs.findSome? f = some c := by
  induction bs with
  | nil => cases member
  | cons first rest ih =>
    by_cases same : first = b
    · rw [List.findSome?_cons, same, found]
    · rw [List.findSome?_cons, only first same]
      exact ih (List.mem_of_ne_of_mem (Ne.symm same) member)

theorem read?_eq_some_iff {cs : List Char} {tree : Tree} :
    Tree.read? cs = some tree ↔ tree.text = cs := by
  constructor
  · intro read
    unfold Tree.read? at read
    split at read
    · next found =>
      cases read
      obtain ⟨rule, -, fits⟩ := List.exists_of_findSome?_eq_some found
      obtain ⟨⟨d, rest⟩, taken, same⟩ := Option.map_eq_some_iff.mp fits
      cases same
      have text := Pattern.text_of_read? taken
      rwa [List.append_nil] at text
    · cases read
  · rintro rfl
    have whole := readsBack tree.rule tree.derivation [] (Letters.begin_nil _)
    rw [List.append_nil] at whole
    have fits : fit? tree.text tree.rule = some (tree, []) := by
      rw [fit?, Tree.text, whole]
      rfl
    have only (rule : Rule) (differ : rule ≠ tree.rule) : fit? tree.text rule = none := by
      rw [fit?, read?_text_other tree differ]
      rfl
    rw [Tree.read?, findSome?_eq_some (mem_all tree.rule) fits only]

end Command.Tree

namespace Command

variable {α : Type} [Scalar α]

theorem read?_ne_unknown (cs : List Char) : read? cs ≠ some (.unknown : Command α) := by
  intro read
  unfold read? at read
  split at read
  case h_4 =>
    obtain ⟨voice, assigned, known⟩ := binding?_eq_some read
    cases known
  all_goals simp at read

/-- A token is known exactly if the grammar admits it. It has one derivation then, which is
also the one that is found without coming back, and is the command of that derivation. -/
theorem ofToken_grammar (token : String) :
    ((ofToken token : Command α) ≠ .unknown ↔
      ∃ tree : Tree, tree.text = token.toList ∧ tree.Admissible) ∧
    (∀ tree : Tree, tree.text = token.toList →
      (∀ other : Tree, other.text = token.toList → other = tree) ∧
      (tree.Admissible → tree.command? = some (ofToken token : Command α))) ∧
    (ofToken token : Command α) = ((Tree.read? token.toList).bind Tree.command?).getD .unknown := by
  have unique {tree other : Tree} (text : tree.text = token.toList)
      (text' : other.text = token.toList) : other = tree := by
    have found := Tree.read?_eq_some_iff.mpr text
    rw [Tree.read?_eq_some_iff.mpr text'] at found
    exact Option.some.inj found
  have admitted {tree : Tree} (text : tree.text = token.toList) (admissible : tree.Admissible) :
      tree.command? = some (ofToken token : Command α) := by
    obtain ⟨command, stands⟩ := Option.isSome_iff_exists.mp
      (tree.isSome_command?_iff.mpr admissible : (tree.command? : Option (Command α)).isSome = true)
    rw [ofToken, ← text, Tree.read?_text, stands, Option.getD_some]
  refine ⟨⟨fun known => ?_, ?_⟩, fun tree text => ⟨fun _ => unique text, admitted text⟩, ?_⟩
  · have read := read?_of_ofToken rfl known
    obtain ⟨tree, text⟩ := Tree.exists_of_read? read
    rw [← text, Tree.read?_text] at read
    exact ⟨tree, text, tree.isSome_command?_iff.mp (by rw [read]; rfl)⟩
  · rintro ⟨tree, text, admissible⟩ unknown
    have read := admitted text admissible
    rw [unknown, ← Tree.read?_text] at read
    exact read?_ne_unknown _ read
  · cases found : Tree.read? token.toList with
    | some tree =>
      rw [ofToken, ← Tree.read?_eq_some_iff.mp found, Tree.read?_text]
      rfl
    | none =>
      cases read : (read? token.toList : Option (Command α)) with
      | none => rw [ofToken, read]; rfl
      | some command =>
        obtain ⟨tree, text⟩ := Tree.exists_of_read? read
        rw [Tree.read?_eq_some_iff.mpr text] at found
        cases found

end Command
end ChordGrammar
