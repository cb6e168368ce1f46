-- How many bytes a document takes. However it is written, a whole number
-- takes as many as it has digits, and an array takes its items, a byte behind
-- each and one in front of all. So a field of a record that was read has no
-- fewer bytes in it.
import FeatureGraph.Proofs.Json.OneLine
import Mathlib.Algebra.Order.BigOperators.Group.List
import Mathlib.Data.Nat.Digits.Defs

namespace FeatureGraph.Json

variable {α β : Type} {scan : Scan α} {bs rest : Bytes} {a : α} {weight : α → Nat}

/-- The reader takes at least as many bytes as what it gives weighs. -/
def Spends (weight : α → Nat) (scan : Scan α) : Prop :=
  ∀ bs a rest, scan bs = some (a, rest) → weight a + rest.length ≤ bs.length

theorem Spends.mono {lighter : α → Nat} (h : Spends weight scan) (hle : ∀ a, lighter a ≤ weight a) :
    Spends lighter scan := fun bs a rest hread =>
  (Nat.add_le_add_right (hle a) _).trans (h bs a rest hread)

theorem Spends.map {weight' : β → Nat} (h : Spends weight scan) {f : α → β}
    (hle : ∀ a, weight' (f a) ≤ weight a) :
    Spends weight' (fun bs => (scan bs).map fun (a, rest) => (f a, rest)) := by
  intro bs b rest hread
  obtain ⟨⟨a, tail⟩, hscan, heq⟩ := Option.map_eq_some_iff.mp hread
  cases heq
  exact (Nat.add_le_add_right (hle a) _).trans (h bs a rest hscan)

/-- A reader leaves no more than there was. -/
def Shrinks (scan : Scan α) : Prop :=
  ∀ bs a rest, scan bs = some (a, rest) → rest.length ≤ bs.length

theorem Spends.shrinks (h : Spends weight scan) : Shrinks scan := fun bs a rest hread =>
  (Nat.le_add_left _ _).trans (h bs a rest hread)

theorem Shrinks.map (h : Shrinks scan) (f : α → β) :
    Shrinks (fun bs => (scan bs).map fun (a, rest) => (f a, rest)) := by
  intro bs b rest hread
  obtain ⟨⟨a, tail⟩, hscan, heq⟩ := Option.map_eq_some_iff.mp hread
  cases heq
  exact h bs a rest hscan

/-! ## Blanks and words -/

theorem length_skipBlanks (bs : Bytes) : (skipBlanks bs).length ≤ bs.length :=
  (List.dropWhile_suffix _).length_le

theorem length_of_skipBlanks {b : UInt8} (h : skipBlanks bs = b :: rest) :
    rest.length + 1 ≤ bs.length := by
  have hle := length_skipBlanks bs
  rwa [h] at hle

theorem shrinks_exactly (word : Bytes) : Shrinks (exactly word) := by
  intro bs a rest h
  unfold exactly at h
  split at h
  · cases h
    simp
  · cases h

/-! ## Numbers -/

theorem spends_digits : Spends List.length digits := by
  intro bs ds rest h
  have hsplit := congrArg List.length (List.takeWhile_append_dropWhile (p := isDigit) (l := bs))
  rw [List.length_append] at hsplit
  unfold digits at h
  split at h
  · cases h
  · rename_i hdigits
    cases h
    rw [hdigits] at hsplit
    exact Nat.le_of_eq hsplit

theorem digits_ne_nil {ds : Bytes} (h : digits bs = some (ds, rest)) : ds ≠ [] := by
  unfold digits at h
  split at h
  · cases h
  · cases h
    exact List.cons_ne_nil _ _

/-- The digits before the point are digits. -/
theorem digits_of_wholeDigits {ds : Bytes} (h : wholeDigits bs = some (ds, rest)) :
    digits bs = some (ds, rest) := by
  unfold wholeDigits at h
  split at h
  · rename_i hdigits
    split at h
    · cases h
    · cases h
      exact hdigits
  · exact h

theorem shrinks_fractionDigits : Shrinks fractionDigits := by
  intro bs ds rest h
  unfold fractionDigits at h
  split at h
  · split at h
    · have := spends_digits.shrinks _ ds rest h
      rw [List.length_cons]
      omega
    · cases h
      simp
  · cases h
    simp

theorem length_takeSign (bs : Bytes) : (takeSign bs).2.length ≤ bs.length := by
  cases bs with
  | nil => simp [takeSign]
  | cons b bs =>
    simp only [takeSign]
    split
    · simp
    · split <;> simp

theorem shrinks_exponentDigits : Shrinks exponentDigits := by
  intro bs e rest h
  unfold exponentDigits at h
  split at h
  · rename_i b bs
    split at h
    · obtain ⟨⟨ds, tail⟩, hdigits, heq⟩ := Option.map_eq_some_iff.mp h
      cases heq
      have := spends_digits.shrinks (takeSign bs).2 ds rest hdigits
      have := length_takeSign bs
      rw [List.length_cons]
      omega
    · cases h
      simp
  · cases h
    simp

/-- A number takes its digits before the point, and there are some. -/
theorem spends_numeral {n : Numeral} (h : numeral bs = some (n, rest)) :
    n.whole ≠ [] ∧ n.whole.length + rest.length ≤ bs.length := by
  obtain ⟨negative, tail, htail, hread⟩ : ∃ negative tail, tail.length ≤ bs.length ∧
      magnitude negative tail = some (n, rest) := by
    cases bs with
    | nil => cases h
    | cons b bs =>
      rw [numeral_cons] at h
      split at h
      · exact ⟨_, bs, by simp, h⟩
      · exact ⟨_, _, Nat.le_refl _, h⟩
  obtain ⟨bs₁, bs₂, hwhole, hfraction, hexponent, -⟩ := magnitude_eq_some.mp hread
  have hdigits := digits_of_wholeDigits hwhole
  have := spends_digits _ _ _ hdigits
  have := shrinks_fractionDigits _ _ _ hfraction
  have := shrinks_exponentDigits _ _ _ hexponent
  exact ⟨digits_ne_nil hdigits, by omega⟩

theorem digitsValue_lt {ds : Bytes} (h : ∀ b ∈ ds, isDigit b = true) :
    digitsValue ds < 10 ^ ds.length := by
  have hfold : ∀ n, ds.foldl (fun n b => n * 10 + digitValue b) n < (n + 1) * 10 ^ ds.length := by
    induction ds with
    | nil => simp
    | cons b ds ih =>
      intro n
      obtain ⟨hb, hds⟩ := List.forall_mem_cons.mp h
      simp only [isDigit, Bool.and_eq_true, decide_eq_true_eq, UInt8.le_iff_toNat_le] at hb
      have hlow : digitValue b + 1 ≤ 10 := by
        have hnine : b.toNat ≤ 57 := hb.2
        rw [digitValue]
        omega
      calc (b :: ds).foldl (fun n b => n * 10 + digitValue b) n
          < (n * 10 + digitValue b + 1) * 10 ^ ds.length := ih hds _
        _ ≤ ((n + 1) * 10) * 10 ^ ds.length := Nat.mul_le_mul_right _ (by omega)
        _ = (n + 1) * 10 ^ (b :: ds).length := by rw [List.length_cons, Nat.pow_succ', Nat.mul_assoc]
  have hall := hfold 0
  rwa [Nat.zero_add, Nat.one_mul] at hall

/-! ## What a document weighs -/

/-- The digits of a whole number. -/
def digitCount : Json → Nat
  | .int n => (Nat.toDigits 10 n.toNat).length
  | _ => 0

/-- The digits of a whole number, or of those in an array, with a byte for each place of the array
and one more. -/
def weightOf : Json → Nat
  | .array items => (items.map digitCount).sum + items.length + 1
  | j => digitCount j

theorem digitCount_le (j : Json) : digitCount j ≤ weightOf j := by
  cases j <;> simp [weightOf, digitCount]

/-- No number weighs more than its digits before the point. -/
def Lexis.Light (lexis : Lexis) : Prop :=
  ∀ (n : Numeral) (j : Json), n.Written → n.whole ≠ [] → lexis.number n = some j →
    weightOf j ≤ n.whole.length

theorem light_kept : kept.Light := by
  intro n j hn hne h
  have hpos : 0 < n.whole.length := List.length_pos_of_ne_nil hne
  have hdigits : (Nat.toDigits 10 (digitsValue n.whole)).length ≤ n.whole.length :=
    Nat.toDigits_length 10 _ _ hpos (digitsValue_lt hn.whole)
  change n.toJson? = some j at h
  unfold Numeral.toJson? at h
  dsimp only at h
  split at h
  · cases h
    simpa [weightOf, digitCount] using hdigits
  · split at h
    · cases h
      have hnegative : (-(digitsValue n.whole : Int)).toNat = 0 := by omega
      simpa [weightOf, digitCount, hnegative] using Nat.succ_le_of_lt hpos
    · split at h
      · cases h
        exact Nat.zero_le _
      · cases h

theorem light_passed : passed.Light := by
  intro n j hn hne h
  cases h
  exact Nat.zero_le _

/-! ## Strings -/

theorem shrinks_hexQuad : Shrinks hexQuad := by
  intro bs n rest h
  unfold hexQuad at h
  split at h
  · split at h
    · cases h
      simp only [List.length_cons]
      omega
    · cases h
  · cases h

theorem shrinks_numberedChar : Shrinks numberedChar := by
  intro bs c rest h
  unfold numberedChar at h
  split at h
  · cases h
  · rename_i n tail hquad
    have htail := shrinks_hexQuad _ _ _ hquad
    split at h
    · cases h
    · split at h
      · split at h
        · split at h
          · split at h
            · rename_i b u more _ m tail' hquad'
              have hmore := shrinks_hexQuad _ _ _ hquad'
              simp only [List.length_cons] at htail
              split at h
              · obtain ⟨-, rfl⟩ := Prod.mk.inj (Option.some.inj h)
                omega
              · cases h
            · cases h
          · cases h
        · cases h
      · cases h
        exact htail

theorem shrinks_escapeBy {numbered : Scan Bytes} (h : Shrinks numbered) :
    Shrinks (escapeBy numbered) := by
  intro bs out rest hread
  unfold escapeBy at hread
  split at hread
  · cases hread
  · split at hread
    · have := h _ _ _ hread
      rw [List.length_cons]
      omega
    · obtain ⟨e, -, heq⟩ := Option.map_eq_some_iff.mp hread
      cases heq
      simp

theorem shrinks_escape : Shrinks escape := by
  rw [escape_eq]
  exact shrinks_escapeBy (shrinks_numberedChar.map String.utf8EncodeChar)

theorem shrinks_escapeShape : Shrinks escapeShape := by
  rw [escapeShape_eq]
  exact shrinks_escapeBy (shrinks_hexQuad.map fun _ => [])

theorem length_of_stringBody {escape : Scan Bytes} (hescape : Shrinks escape)
    {fuel done out : Bytes} (h : stringBody escape fuel done bs = some (out, rest)) :
    rest.length ≤ bs.length := by
  induction fuel generalizing done bs with
  | nil => cases h
  | cons f fuel ih =>
    cases bs with
    | nil => cases h
    | cons b bs =>
      rw [stringBody] at h
      rw [List.length_cons]
      split at h
      · cases h
        exact Nat.le_succ _
      · split at h
        · split at h
          · cases h
          · rename_i out' tail hread
            have := hescape _ _ _ hread
            have := ih h
            omega
        · split at h
          · cases h
          · exact Nat.le_succ_of_le (ih h)

theorem shrinks_keptString : Shrinks keptString := by
  intro bs s rest h
  unfold keptString at h
  split at h
  · cases h
  · rename_i raw tail hbody
    obtain ⟨text, -, heq⟩ := Option.map_eq_some_iff.mp h
    cases heq
    exact length_of_stringBody shrinks_escape hbody

theorem shrinks_passedString : Shrinks passedString := by
  intro bs s rest h
  obtain ⟨⟨raw, tail⟩, hbody, heq⟩ := Option.map_eq_some_iff.mp h
  cases heq
  exact length_of_stringBody shrinks_escapeShape hbody

/-! ## Arrays and objects -/

section Series

variable {one : Scan α} {close : UInt8}

theorem spends_seriesFrom (hone : Spends weight one) {fuel : Bytes} {done as : List α}
    (h : seriesFrom close one fuel done bs = some (as, rest)) :
    (as.map weight).sum + as.length + rest.length ≤
      (done.map weight).sum + done.length + bs.length := by
  induction fuel generalizing done bs with
  | nil => cases h
  | cons f fuel ih =>
    rw [seriesFrom] at h
    split at h
    · cases h
    · rename_i a tail hread
      have hspent := hone _ _ _ hread
      split at h
      · cases h
      · rename_i b behind hskip
        have hbehind := length_of_skipBlanks hskip
        split at h
        · have hmore := ih h
          simp only [List.map_cons, List.sum_cons, List.length_cons] at hmore
          omega
        · split at h
          · cases h
            simp only [List.map_reverse, List.sum_reverse, List.length_reverse, List.map_cons,
              List.sum_cons, List.length_cons]
            omega
          · cases h

/-- Between brackets each takes what it weighs, and a byte behind it. -/
theorem spends_series (hone : Spends weight one) :
    Spends (fun as => (as.map weight).sum + as.length) (series close one) := by
  intro bs as rest h
  unfold series at h
  split at h
  · cases h
  · rename_i b behind hskip
    have hbehind := length_of_skipBlanks hskip
    split at h
    · cases h
      simp only [List.map_nil, List.sum_nil, List.length_nil]
      omega
    · have hall := spends_seriesFrom hone h
      simp only [List.map_nil, List.sum_nil, List.length_nil, List.length_cons] at hall
      change (as.map weight).sum + as.length + rest.length ≤ bs.length
      omega

end Series

theorem spends_member {string : Scan String} {item : String → Scan Json} (hstring : Shrinks string)
    (hitem : ∀ key, Spends weightOf (item key)) :
    Spends (fun m => weightOf m.2) (member string item) := by
  intro bs m rest h
  unfold member at h
  split at h
  · cases h
  · rename_i b behind hskip
    have hbehind := length_of_skipBlanks hskip
    split at h
    · split at h
      · cases h
      · rename_i key tail hkey
        have htail := hstring _ _ _ hkey
        split at h
        · cases h
        · rename_i c behind' hskip'
          have hbehind' := length_of_skipBlanks hskip'
          split at h
          · obtain ⟨⟨j, rest'⟩, hread, heq⟩ := Option.map_eq_some_iff.mp h
            cases heq
            have := hitem _ _ _ _ hread
            dsimp only
            omega
          · cases h
    · cases h

/-! ## Documents -/

theorem spends_scalar {lexis : Lexis} (hstring : Shrinks lexis.string) (hlight : lexis.Light) :
    Spends weightOf (scalar lexis) := by
  intro bs j rest h
  unfold scalar at h
  split at h
  · cases h
  · rename_i b bs
    have hword {scan : Scan Unit} {j' : Json} (hscan : Shrinks scan) (hj' : weightOf j' = 0)
        (hread : ((scan bs).map fun r => (j', r.2)) = some (j, rest)) :
        weightOf j + rest.length ≤ (b :: bs).length := by
      obtain ⟨r, hword, heq⟩ := Option.map_eq_some_iff.mp hread
      cases heq
      have := hscan bs r.1 r.2 hword
      rw [hj', List.length_cons]
      omega
    split at h
    · obtain ⟨⟨s, tail⟩, hread, heq⟩ := Option.map_eq_some_iff.mp h
      cases heq
      have := hstring _ _ _ hread
      simp only [weightOf, digitCount, List.length_cons]
      omega
    · split at h
      · exact hword (shrinks_exactly _) rfl h
      · split at h
        · exact hword (shrinks_exactly _) rfl h
        · split at h
          · exact hword (shrinks_exactly _) rfl h
          · split at h
            · cases h
            · rename_i n tail hnumeral
              obtain ⟨j', hnumber, heq⟩ := Option.map_eq_some_iff.mp h
              cases heq
              obtain ⟨hne, hspent⟩ := spends_numeral hnumeral
              have := hlight n j (written_of_numeral hnumeral) hne hnumber
              omega

theorem spends_value {lexis : Lexis} (hstring : Shrinks lexis.string) (hlight : lexis.Light)
    (limit : Nat) : Spends weightOf (value lexis limit) := by
  induction limit with
  | zero =>
    intro bs j rest h
    rw [value] at h
    exact (spends_scalar hstring hlight _ _ _ h).trans (length_skipBlanks bs)
  | succ limit ih =>
    intro bs j rest h
    rw [value] at h
    split at h
    · cases h
    · rename_i b behind hskip
      have hbehind := length_of_skipBlanks hskip
      split at h
      · rw [items_eq] at h
        obtain ⟨⟨js, rest'⟩, hread, heq⟩ := Option.map_eq_some_iff.mp h
        cases heq
        have hspent : (js.map digitCount).sum + js.length + rest.length ≤ behind.length :=
          spends_series (ih.mono digitCount_le) _ _ _ hread
        rw [weightOf]
        omega
      · split at h
        · rw [members_eq] at h
          obtain ⟨⟨ms, rest'⟩, hread, heq⟩ := Option.map_eq_some_iff.mp h
          cases heq
          have := (spends_series (spends_member hstring fun _ => ih)).shrinks _ _ _ hread
          simp only [ofMembers, weightOf, digitCount]
          omega
        · have := spends_scalar hstring hlight _ _ _ h
          rw [List.length_cons] at this
          omega

/-! ## Records -/

theorem spends_fieldItem (fields : List String) (key : String) :
    Spends weightOf (fieldItem fields key) := by
  intro bs j rest h
  unfold fieldItem at h
  split at h
  · exact spends_value shrinks_keptString light_kept _ _ _ _ h
  · exact spends_value shrinks_passedString light_passed _ _ _ _ h

theorem weightOf_lt_of_arrayItems {js : List Json} (h : arrayItems bs = some (js, rest)) {j : Json}
    (hj : j ∈ js) : weightOf j < bs.length := by
  unfold arrayItems at h
  split at h
  · cases h
  · rename_i b behind hskip
    have hbehind := length_of_skipBlanks hskip
    split at h
    · rw [items_eq] at h
      have hspent : (js.map weightOf).sum + js.length + rest.length ≤ behind.length :=
        spends_series (spends_value shrinks_keptString light_kept _) _ _ _ h
      have hj : weightOf j ≤ (js.map weightOf).sum :=
        List.le_sum_of_mem (List.mem_map_of_mem hj)
      omega
    · cases h

theorem weightOf_lt_of_objectMembers {fields : List String} {ms : List (String × Json)}
    (h : objectMembers (fieldItem fields) bs = some (ms, rest)) {m : String × Json} (hm : m ∈ ms) :
    weightOf m.2 < bs.length := by
  unfold objectMembers at h
  split at h
  · cases h
  · rename_i b behind hskip
    have hbehind := length_of_skipBlanks hskip
    split at h
    · rw [members_eq] at h
      have hspent : (ms.map fun m => weightOf m.2).sum + ms.length + rest.length ≤
          behind.length :=
        spends_series (spends_member shrinks_keptString (spends_fieldItem fields)) _ _ _ h
      have hm : weightOf m.2 ≤ (ms.map fun m => weightOf m.2).sum :=
        List.le_sum_of_mem (List.mem_map_of_mem hm)
      omega
    · cases h

/-- A record has at least as many bytes as one of its fields weighs. -/
theorem weightOf_le_of_parseRecord? {fields : List String} {js : List Json}
    (h : parseRecord? fields bs = some js) {j : Json} (hj : j ∈ js) : weightOf j < bs.length := by
  unfold parseRecord? at h
  split at h
  · rename_i harray
    split at h
    · cases h
      obtain ⟨rest, hread⟩ := of_complete harray
      exact weightOf_lt_of_arrayItems hread hj
    · cases h
  · split at h
    · cases h
    · rename_i ms hobject
      obtain ⟨rest, hread⟩ := of_complete hobject
      obtain ⟨f, -, hf⟩ := exists_of_mem_mapM h hj
      split at hf
      · rename_i m hfilter
        cases hf
        have hm : m ∈ ms := List.mem_of_mem_filter (hfilter ▸ List.mem_cons_self)
        exact weightOf_lt_of_objectMembers hread hm
      · cases hf

end FeatureGraph.Json
