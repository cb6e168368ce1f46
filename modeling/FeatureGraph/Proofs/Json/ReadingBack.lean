-- What is printed is read back: texts that need no escapes, whole numbers,
-- and arrays and records of what is read back itself. A number has no end of
-- its own, so a reader is tried on what goes on as a document does.
import FeatureGraph.Json.Printer
import FeatureGraph.Proofs.Json.Continuing
import FeatureGraph.Proofs.Lists
import FeatureGraph.Proofs.Text.Words
import Mathlib.Algebra.Group.Nat.Defs

namespace FeatureGraph.Json

variable {α : Type} {scan : Scan α} {text rest : Bytes} {a : α}

/-- What stands behind a value within a document: a comma, or the end of an array or an
object. -/
def GoesOn (rest : Bytes) : Prop :=
  ∃ b more, rest = b :: more ∧ (b = 0x2C ∨ b = 0x5D ∨ b = 0x7D)

/-- The reader takes the bytes for `a` and leaves what stands behind them. They begin neither
with a blank nor with the end of an array or an object. -/
structure ReadsBack (scan : Scan α) (text : Bytes) (a : α) : Prop where
  begins : ∃ b more, text = b :: more ∧ isBlank b = false ∧ b ≠ 0x5D ∧ b ≠ 0x7D
  reads : ∀ rest, GoesOn rest → scan (text ++ rest) = some (a, rest)

theorem skipBlanks_cons {b : UInt8} (h : isBlank b = false) (bs : Bytes) :
    skipBlanks (b :: bs) = b :: bs := by
  simp [skipBlanks, h]

theorem GoesOn.skipBlanks (h : GoesOn rest) : skipBlanks rest = rest := by
  obtain ⟨b, more, rfl, hb⟩ := h
  refine skipBlanks_cons ?_ more
  rcases hb with rfl | rfl | rfl <;> rfl

/-! ## Numbers -/

/-- The decimal digits of a number. -/
def digitBytes (n : Nat) : Bytes := (Nat.toDigits 10 n).flatMap String.utf8EncodeChar

theorem isDigit_toNat_le {c : Char} (h : c.isDigit = true) : 48 ≤ c.toNat ∧ c.toNat ≤ 57 := by
  simpa [Char.isDigit, UInt32.le_iff_toNat_le] using h

theorem digitBytes_eq (n : Nat) :
    digitBytes n = (Nat.toDigits 10 n).map fun c => UInt8.ofNat c.toNat := by
  refine Text.encode_ascii fun c hc => ?_
  have hdigit := isDigit_toNat_le (Nat.isDigit_of_mem_toDigits (by decide) (by decide) hc)
  omega

theorem digitBytes_ne_nil (n : Nat) : digitBytes n ≠ [] := by
  simp [digitBytes_eq, Nat.toDigits_ne_nil]

theorem isDigit_of_mem_digitBytes {n : Nat} {b : UInt8} (h : b ∈ digitBytes n) :
    isDigit b = true := by
  rw [digitBytes_eq] at h
  obtain ⟨c, hc, rfl⟩ := List.mem_map.mp h
  have hdigit := isDigit_toNat_le (Nat.isDigit_of_mem_toDigits (by decide) (by decide) hc)
  simp only [isDigit, Bool.and_eq_true, decide_eq_true_eq, UInt8.le_iff_toNat_le,
    UInt8.toNat_ofNat']
  exact ⟨by simp; omega, by simp; omega⟩

theorem digitsValue_digitBytes (n : Nat) : digitsValue (digitBytes n) = n := by
  have hread := Nat.ofDigitChars_ten_toDigits (n := n)
  rw [Nat.ofDigitChars_eq_foldl] at hread
  rw [digitsValue, digitBytes_eq, List.foldl_map]
  refine Eq.trans (List.foldl_ext _ _ 0 fun m c hc => ?_) hread
  have hdigit := isDigit_toNat_le (Nat.isDigit_of_mem_toDigits (by decide) (by decide) hc)
  have hbyte : (UInt8.ofNat c.toNat).toNat = c.toNat := by
    rw [UInt8.toNat_ofNat']
    omega
  rw [digitValue, hbyte, Nat.mul_comm]
  rfl

theorem digitChar_ne_zero {n : Nat} (h : 0 < n) (hlt : n < 10) : n.digitChar ≠ '0' := by
  have hall : ∀ m : Fin 10, 0 < m.val → m.val.digitChar ≠ '0' := by decide
  exact hall ⟨n, hlt⟩ h

theorem toDigits_first {n : Nat} (h : 0 < n) : ∃ c cs, Nat.toDigits 10 n = c :: cs ∧ c ≠ '0' := by
  induction n using Nat.strongRecOn with
  | ind n ih =>
    by_cases hlt : n < 10
    · exact ⟨_, _, Nat.toDigits_of_lt_base hlt, digitChar_ne_zero h hlt⟩
    · obtain ⟨c, cs, hdigits, hc⟩ := ih (n / 10) (by omega) (by omega)
      refine ⟨c, cs ++ [(n % 10).digitChar], ?_, hc⟩
      rw [Nat.toDigits_of_base_le (by decide) (by omega), hdigits]
      rfl

theorem digits_append {ds : Bytes} (hne : ds ≠ []) (hds : ∀ b ∈ ds, isDigit b = true)
    (hrest : GoesOn rest) : digits (ds ++ rest) = some (ds, rest) := by
  obtain ⟨b, more, rfl, hb⟩ := hrest
  have hstop : isDigit b = false := by rcases hb with rfl | rfl | rfl <;> rfl
  have htake : (ds ++ b :: more).takeWhile isDigit = ds := by
    rw [List.takeWhile_append_of_pos hds, List.takeWhile_cons_of_neg (by simp [hstop]),
      List.append_nil]
  have hdrop : (ds ++ b :: more).dropWhile isDigit = b :: more := by
    rw [List.dropWhile_append_of_pos hds, List.dropWhile_cons_of_neg (by simp [hstop])]
  unfold digits
  rw [htake, hdrop]
  cases ds with
  | nil => exact absurd rfl hne
  | cons d ds => rfl

/-- Only zero itself begins with a zero, so the digits are read to their end. -/
theorem wholeDigits_digitBytes (n : Nat) (hrest : GoesOn rest) :
    wholeDigits (digitBytes n ++ rest) = some (digitBytes n, rest) := by
  have hread := digits_append (digitBytes_ne_nil n) (fun b hb => isDigit_of_mem_digitBytes hb) hrest
  unfold wholeDigits
  rw [hread]
  rcases Nat.eq_zero_or_pos n with rfl | hpos
  · rfl
  · obtain ⟨c, cs, hdigits, hc⟩ := toDigits_first hpos
    have hfirst : UInt8.ofNat c.toNat ≠ 0x30 := by
      intro heq
      have hmem : c ∈ Nat.toDigits 10 n := hdigits ▸ List.mem_cons_self
      have hdigit := isDigit_toNat_le (Nat.isDigit_of_mem_toDigits (by decide) (by decide) hmem)
      have hnat := congrArg UInt8.toNat heq
      rw [UInt8.toNat_ofNat'] at hnat
      have hzero : c.toNat = 48 := by simpa using (by omega : c.toNat % 256 = c.toNat) ▸ hnat
      exact hc (Char.toNat_inj.mp hzero)
    rw [digitBytes_eq, hdigits]
    cases cs with
    | nil => rfl
    | cons d cs => simp [hfirst]

theorem fractionDigits_none (hrest : GoesOn rest) : fractionDigits rest = some ([], rest) := by
  obtain ⟨b, more, rfl, rfl | rfl | rfl⟩ := hrest <;> rfl

theorem exponentDigits_none (hrest : GoesOn rest) : exponentDigits rest = some (none, rest) := by
  obtain ⟨b, more, rfl, rfl | rfl | rfl⟩ := hrest <;> rfl

theorem numeral_digitBytes (n : Nat) (hrest : GoesOn rest) :
    numeral (digitBytes n ++ rest) = some (⟨false, digitBytes n, [], none⟩, rest) := by
  have hread : magnitude false (digitBytes n ++ rest) =
      some (⟨false, digitBytes n, [], none⟩, rest) :=
    magnitude_eq_some.mpr ⟨rest, rest, wholeDigits_digitBytes n hrest, fractionDigits_none hrest,
      exponentDigits_none hrest, rfl⟩
  obtain ⟨d, ds, hds⟩ := List.exists_cons_of_ne_nil (digitBytes_ne_nil n)
  have hd : isDigit d = true := isDigit_of_mem_digitBytes (hds ▸ List.mem_cons_self)
  have hsign : d ≠ 0x2D := by
    rintro rfl
    cases hd
  rw [hds, List.cons_append, numeral_cons, if_neg hsign, ← List.cons_append, ← hds]
  exact hread

theorem toJson?_digitBytes {n : Nat} (hfits : n < 2 ^ 64) :
    Numeral.toJson? ⟨false, digitBytes n, [], none⟩ = some (.int n) := by
  have hsmall : decide (n < Nat.pow 2 64) = true := decide_eq_true hfits
  simp only [Numeral.toJson?, digitsValue_digitBytes, List.isEmpty_nil, Option.isNone_none,
    Bool.not_false, Bool.and_self, hsmall, if_true]

/-! ## Leaves -/

theorem value_scalar {lexis : Lexis} {b : UInt8} (hblank : isBlank b = false) (harray : b ≠ 0x5B)
    (hobject : b ≠ 0x7B) (limit : Nat) (bs : Bytes) :
    value lexis limit (b :: bs) = scalar lexis (b :: bs) := by
  cases limit with
  | zero => rw [value, skipBlanks_cons hblank]
  | succ limit =>
    rw [value, skipBlanks_cons hblank]
    simp only [harray, hobject, if_false]

/-- A whole number that fits into 64 bits is read back. -/
theorem readsBack_int {n : Nat} (hfits : n < 2 ^ 64) (limit : Nat) :
    ReadsBack (value kept limit) (Text.encode (print (.int n))) (.int n) := by
  have htext : Text.encode (print (.int n)) = digitBytes n := Text.encode_ofList _
  obtain ⟨d, ds, hds⟩ := List.exists_cons_of_ne_nil (digitBytes_ne_nil n)
  have hd : isDigit d = true := isDigit_of_mem_digitBytes (hds ▸ List.mem_cons_self)
  have hapart : ∀ b, isDigit b = false → d ≠ b := by
    rintro b hb rfl
    rw [hd] at hb
    cases hb
  have hblank : isBlank d = false := by
    simp [isBlank, hapart 0x20 rfl, hapart 0x09 rfl, hapart 0x0A rfl, hapart 0x0D rfl]
  rw [htext]
  refine ⟨⟨d, ds, hds, hblank, hapart _ rfl, hapart _ rfl⟩, fun rest hrest => ?_⟩
  have hread := numeral_digitBytes n hrest
  rw [hds, List.cons_append] at hread ⊢
  rw [value_scalar hblank (hapart _ rfl) (hapart _ rfl)]
  simp only [scalar, hapart 0x22 rfl, hapart 0x6E rfl, hapart 0x74 rfl, hapart 0x66 rfl, if_false,
    hread, kept, ← hds, toJson?_digitBytes hfits, Option.map_some]

/-- A character that stands for itself within a string, in one byte. -/
def Unescaped (c : Char) : Prop := 0x20 ≤ c.toNat ∧ c.toNat ≤ 127 ∧ c ≠ '\x22' ∧ c ≠ '\\'

instance (c : Char) : Decidable (Unescaped c) := inferInstanceAs (Decidable (_ ∧ _))

theorem unescaped_of_all {s : String} (h : s.toList.all (decide <| Unescaped ·) = true) :
    ∀ c ∈ s.toList, Unescaped c :=
  fun c hc => of_decide_eq_true (List.all_eq_true.mp h c hc)

theorem escapeChar_of_unescaped {c : Char} (h : Unescaped c) : escapeChar c = [c] := by
  obtain ⟨hlow, -, hquote, hslash⟩ := h
  have hcontrol : ∀ d : Char, d.toNat < 0x20 → c ≠ d := by
    rintro d hd rfl
    omega
  simp [escapeChar, hquote, hslash, hcontrol '\x08' (by decide), hcontrol '\x0c' (by decide),
    hcontrol '\n' (by decide), hcontrol '\r' (by decide), hcontrol '\t' (by decide),
    Nat.not_lt.mpr hlow]

theorem stringBody_plain {ds fuel : Bytes} (h : ∀ b ∈ ds, b ≠ 0x22 ∧ b ≠ 0x5C ∧ ¬ b < 0x20)
    (hfuel : ds.length < fuel.length) (done rest : Bytes) :
    stringBody escape fuel done (ds ++ 0x22 :: rest) = some (done.reverse ++ ds, rest) := by
  induction ds generalizing fuel done with
  | nil =>
    obtain ⟨f, fuel, rfl⟩ := List.exists_cons_of_length_pos (Nat.zero_lt_of_lt hfuel)
    rw [List.nil_append, stringBody, if_pos rfl, List.append_nil]
  | cons d ds ih =>
    obtain ⟨f, fuel, rfl⟩ := List.exists_cons_of_length_pos (Nat.zero_lt_of_lt hfuel)
    obtain ⟨⟨hquote, hslash, hcontrol⟩, hds⟩ := List.forall_mem_cons.mp h
    rw [List.cons_append, stringBody, if_neg hquote, if_neg hslash, if_neg hcontrol,
      ih hds (by simpa using hfuel)]
    simp

section Texts

variable {s : String}

theorem encode_unescaped (h : ∀ c ∈ s.toList, Unescaped c) :
    ∀ b ∈ Text.encode s, b ≠ 0x22 ∧ b ≠ 0x5C ∧ ¬ b < 0x20 := by
  intro b hb
  rw [Text.encode_eq, Text.encode_ascii fun c hc => (h c hc).2.1] at hb
  obtain ⟨c, hc, rfl⟩ := List.mem_map.mp hb
  obtain ⟨hlow, hhigh, hquote, hslash⟩ := h c hc
  have hbyte : (UInt8.ofNat c.toNat).toNat = c.toNat := by
    rw [UInt8.toNat_ofNat']
    omega
  have hapart : ∀ d : Char, d.toNat < 256 → c ≠ d → UInt8.ofNat c.toNat ≠ UInt8.ofNat d.toNat := by
    intro d hd hne heq
    have hnat := congrArg UInt8.toNat heq
    rw [hbyte, UInt8.toNat_ofNat', Nat.mod_eq_of_lt hd] at hnat
    exact hne (Char.toNat_inj.mp hnat)
  refine ⟨hapart '\x22' (by decide) hquote, hapart '\\' (by decide) hslash, ?_⟩
  rw [UInt8.lt_iff_toNat_lt, hbyte]
  exact Nat.not_lt.mpr hlow

theorem keptString_encode (h : ∀ c ∈ s.toList, Unescaped c) (rest : Bytes) :
    keptString (Text.encode s ++ 0x22 :: rest) = some (s, rest) := by
  rw [keptString, stringBody_plain (encode_unescaped h) (by simp)]
  simp [Text.decode?_encode]

theorem encode_stringChars (h : ∀ c ∈ s.toList, Unescaped c) :
    (stringChars s).flatMap String.utf8EncodeChar = 0x22 :: Text.encode s ++ [0x22] := by
  have hsame : s.toList.flatMap escapeChar = s.toList := by
    rw [List.flatMap_congr fun c hc => escapeChar_of_unescaped (h c hc)]
    simp
  rw [stringChars, hsame, List.flatMap_append, List.flatMap_cons, Text.encode_eq]
  rfl

/-- A text that needs no escapes is read back. -/
theorem readsBack_string (h : ∀ c ∈ s.toList, Unescaped c) (limit : Nat) :
    ReadsBack (value kept limit) (Text.encode (print (.string s))) (.string s) := by
  have htext : Text.encode (print (.string s)) = 0x22 :: Text.encode s ++ [0x22] :=
    (Text.encode_ofList _).trans (encode_stringChars h)
  rw [htext]
  refine ⟨⟨_, _, rfl, rfl, by decide, by decide⟩, fun rest _ => ?_⟩
  rw [List.append_assoc, List.cons_append, value_scalar rfl (by decide) (by decide)]
  simp [scalar, kept, keptString_encode h]

end Texts

/-! ## Arrays and records -/

/-- Texts with commas between them. -/
def joined (texts : List Bytes) : Bytes := [0x2C].intercalate texts

theorem joined_cons_cons (text next : Bytes) (texts : List Bytes) :
    joined (text :: next :: texts) = text ++ 0x2C :: joined (next :: texts) := by
  simp [joined, List.intercalate]

theorem length_le_joined (text : Bytes) (texts : List Bytes) :
    texts.length ≤ (joined (text :: texts)).length := by
  induction texts generalizing text with
  | nil => exact Nat.zero_le _
  | cons next texts ih =>
    have hle := ih next
    rw [joined_cons_cons, List.length_append, List.length_cons, List.length_cons]
    omega

section Series

variable {one : Scan α} {text : α → Bytes} {close : UInt8} {as : List α}

theorem seriesFrom_joined (h : ∀ x ∈ a :: as, ReadsBack one (text x) x) (hcomma : close ≠ 0x2C)
    (hclose : GoesOn (close :: rest)) {fuel : Bytes} (hfuel : as.length < fuel.length)
    (done : List α) : seriesFrom close one fuel done (joined ((a :: as).map text) ++ close :: rest) =
      some (done.reverse ++ a :: as, rest) := by
  induction as generalizing a fuel done with
  | nil =>
    obtain ⟨f, fuel, rfl⟩ := List.exists_cons_of_length_pos (Nat.zero_lt_of_lt hfuel)
    have hread := (h a List.mem_cons_self).reads _ hclose
    have htext : joined ([a].map text) = text a := by simp [joined, List.intercalate]
    rw [htext, seriesFrom, hread]
    simp only [hclose.skipBlanks, hcomma, if_false, if_true, List.reverse_cons]
  | cons next as ih =>
    obtain ⟨f, fuel, rfl⟩ := List.exists_cons_of_length_pos (Nat.zero_lt_of_lt hfuel)
    obtain ⟨hfirst, hrest⟩ := List.forall_mem_cons.mp h
    have hon : GoesOn (0x2C :: (joined ((next :: as).map text) ++ close :: rest)) :=
      ⟨_, _, rfl, Or.inl rfl⟩
    rw [List.map_cons, List.map_cons, joined_cons_cons, List.append_assoc, List.cons_append,
      seriesFrom, ← List.map_cons, hfirst.reads _ hon]
    simp only [hon.skipBlanks, if_true]
    rw [ih hrest (by simpa using hfuel)]
    simp

theorem series_joined (h : ∀ x ∈ as, ReadsBack one (text x) x)
    (hclose : close = 0x5D ∨ close = 0x7D) (rest : Bytes) :
    series close one (joined (as.map text) ++ close :: rest) = some (as, rest) := by
  have hon : GoesOn (close :: rest) := ⟨_, _, rfl, Or.inr hclose⟩
  cases as with
  | nil =>
    rw [series, show joined (([] : List α).map text) = [] from rfl, List.nil_append,
      hon.skipBlanks]
    simp
  | cons a as =>
    obtain ⟨b, more, hbegins, hblank, harray, hobject⟩ := (h a List.mem_cons_self).begins
    obtain ⟨behind, hbehind⟩ : ∃ behind, joined ((a :: as).map text) = b :: behind := by
      cases as with
      | nil => exact ⟨more, by simpa [joined, List.intercalate] using hbegins⟩
      | cons next as =>
        rw [List.map_cons, List.map_cons, joined_cons_cons, hbegins]
        exact ⟨_, rfl⟩
    have hother : b ≠ close := by
      rcases hclose with rfl | rfl
      · exact harray
      · exact hobject
    have hcomma : close ≠ 0x2C := by rcases hclose with rfl | rfl <;> decide
    have hfuel : as.length < (joined ((a :: as).map text) ++ close :: rest).length := by
      have hle := length_le_joined (text a) (as.map text)
      rw [List.length_map] at hle
      rw [List.map_cons, List.length_append, List.length_cons]
      omega
    have hread := seriesFrom_joined h hcomma hon hfuel []
    rw [hbehind, List.cons_append] at hread ⊢
    rw [series, skipBlanks_cons hblank]
    simp only [hother, if_false, hread]
    rfl

end Series

theorem encode_itemChars (items : List Json) : (itemChars items).flatMap String.utf8EncodeChar =
    joined (items.map fun j => Text.encode (print j)) := by
  induction items with
  | nil => rfl
  | cons j items ih =>
    cases items with
    | nil => simp [itemChars, joined, List.intercalate, print, Text.encode_ofList]
    | cons next items =>
      rw [List.map_cons] at ih
      rw [List.map_cons, List.map_cons, joined_cons_cons, ← ih, print, Text.encode_ofList,
        itemChars, List.flatMap_append, List.flatMap_cons]
      · rfl
      · simp

/-- A member as it is printed. -/
def memberBytes (m : String × Json) : Bytes :=
  Text.encode (print (.string m.1)) ++ 0x3A :: Text.encode (print m.2)

theorem encode_memberChars (ms : List (String × Json)) :
    (memberChars ms).flatMap String.utf8EncodeChar = joined (ms.map memberBytes) := by
  have hmember : ∀ (key : String) (j : Json), memberBytes (key, j) =
      (stringChars key ++ ':' :: chars j).flatMap String.utf8EncodeChar := by
    intro key j
    rw [memberBytes, print, print, Text.encode_ofList, Text.encode_ofList, List.flatMap_append,
      List.flatMap_cons]
    rfl
  induction ms with
  | nil => rfl
  | cons m ms ih =>
    obtain ⟨key, j⟩ := m
    cases ms with
    | nil => simp [memberChars, joined, List.intercalate, hmember]
    | cons next ms =>
      rw [List.map_cons, List.map_cons, joined_cons_cons, ← List.map_cons, ← ih, hmember,
        memberChars, List.flatMap_append, List.flatMap_cons]
      · rfl
      · simp

theorem readsBack_array {items : List Json} {limit : Nat}
    (h : ∀ j ∈ items, ReadsBack (value kept limit) (Text.encode (print j)) j) :
    ReadsBack (value kept (limit + 1)) (Text.encode (print (.array items))) (.array items) := by
  have htext : Text.encode (print (.array items)) =
      0x5B :: joined (items.map fun j => Text.encode (print j)) ++ [0x5D] := by
    rw [print, Text.encode_ofList, chars, List.flatMap_append, List.flatMap_cons, encode_itemChars]
    rfl
  rw [htext]
  refine ⟨⟨_, _, rfl, rfl, by decide, by decide⟩, fun rest _ => ?_⟩
  rw [List.append_assoc, List.cons_append, value, skipBlanks_cons rfl]
  simp only [if_true, items_eq, List.singleton_append,
    series_joined h (Or.inl rfl) rest, Option.map_some]

theorem readsBack_member {item : String → Scan Json} {key : String} {j : Json}
    (hkey : ∀ c ∈ key.toList, Unescaped c) (h : ReadsBack (item key) (Text.encode (print j)) j) :
    ReadsBack (member keptString item) (memberBytes (key, j)) (key, j) := by
  have htext : memberBytes (key, j) =
      0x22 :: (Text.encode key ++ 0x22 :: 0x3A :: Text.encode (print j)) := by
    rw [memberBytes, print, Text.encode_ofList, chars, encode_stringChars hkey]
    simp
  rw [htext]
  refine ⟨⟨_, _, rfl, rfl, by decide, by decide⟩, fun rest hrest => ?_⟩
  rw [List.cons_append, member, skipBlanks_cons rfl]
  simp only [if_true, List.append_assoc, List.cons_append, keptString_encode hkey,
    skipBlanks_cons (show isBlank 0x3A = false from rfl), h.reads rest hrest, Option.map_some]

/-- Of members with different keys, one has a key. -/
theorem filter_key_eq {ms : List (String × Json)} (hnodup : (ms.map (·.1)).Nodup)
    {m : String × Json} (hm : m ∈ ms) : ms.filter (·.1 = m.1) = [m] := by
  obtain ⟨front, back, rfl⟩ := List.append_of_mem hm
  rw [List.map_append, List.map_cons, List.nodup_append, List.nodup_cons] at hnodup
  obtain ⟨-, ⟨hback, -⟩, hfront⟩ := hnodup
  have hnone : front.filter (·.1 = m.1) = [] := by
    rw [List.filter_eq_nil_iff]
    intro x hx
    simpa using hfront x.1 (List.mem_map_of_mem hx) m.1 List.mem_cons_self
  have hrest : back.filter (·.1 = m.1) = [] := by
    rw [List.filter_eq_nil_iff]
    intro x hx heq
    exact hback (of_decide_eq_true heq ▸ List.mem_map_of_mem hx)
  rw [List.filter_append, hnone, List.filter_cons_of_pos (by simp), hrest]
  rfl

/-- A record that is printed with its fields in order is read back. -/
theorem parseRecord?_print {ms : List (String × Json)} (hnodup : (ms.map (·.1)).Nodup)
    (hkeys : ∀ m ∈ ms, ∀ c ∈ m.1.toList, Unescaped c)
    (h : ∀ m ∈ ms, ReadsBack (value kept (nestingLimit - 1)) (Text.encode (print m.2)) m.2) :
    parseRecord? (ms.map (·.1)) (Text.encode (print (.object ms))) = some (ms.map (·.2)) := by
  have htext : Text.encode (print (.object ms)) = 0x7B :: (joined (ms.map memberBytes) ++ [0x7D]) := by
    rw [print, Text.encode_ofList, chars, List.flatMap_append, List.flatMap_cons, encode_memberChars]
    rfl
  have hread : complete (objectMembers (fieldItem (ms.map (·.1))))
      (Text.encode (print (.object ms))) = some ms := by
    have hone : ∀ m ∈ ms, ReadsBack (member keptString (fieldItem (ms.map (·.1))))
        (memberBytes m) m := by
      rintro ⟨key, j⟩ hm
      refine readsBack_member (hkeys _ hm) ?_
      have hfield : fieldItem (ms.map (·.1)) key = value kept (nestingLimit - 1) := by
        funext bs
        rw [fieldItem, if_pos (List.mem_map_of_mem (f := (·.1)) hm)]
      exact hfield ▸ h _ hm
    rw [htext, complete, objectMembers, skipBlanks_cons rfl]
    simp only [if_true, members_eq, series_joined hone (Or.inr rfl) []]
    rfl
  have harray : complete arrayItems (Text.encode (print (.object ms))) = none := by
    rw [htext, complete, arrayItems, skipBlanks_cons rfl]
    rfl
  simp only [parseRecord?, harray, hread]
  rw [List.mapM_map]
  refine mapM_eq_some fun m hm => ?_
  simp only [Function.comp_apply, filter_key_eq hnodup hm]

end FeatureGraph.Json
