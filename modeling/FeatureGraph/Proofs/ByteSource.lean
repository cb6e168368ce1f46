-- What is read of a source, however few bytes each read gives. One that ends
-- before it fails gives its bytes in pieces of the size that is asked for; of
-- one that fails there are the pieces before the failure.
import FeatureGraph.ByteSource
import FeatureGraph.Proofs.Pieces

namespace FeatureGraph.ByteSource

variable {s : ByteSource}

/-- The source ends before it would fail. -/
def Lasts (s : ByteSource) : Prop := ∀ k e, s.fault = some (k, e) → s.rest.length < k

theorem lasts_of_sound (h : s.fault = none) : s.Lasts := fun _ _ hfault => by
  rw [h] at hfault
  cases hfault

/-- Where this many bytes, or all that are left, are given before the source fails. -/
def Reaches (s : ByteSource) (want : Nat) : Prop :=
  ∀ k e, s.fault = some (k, e) → want ≤ k ∨ s.rest.length < k

theorem Lasts.reaches (h : s.Lasts) (want : Nat) : s.Reaches want :=
  fun k e hfault => .inr (h k e hfault)

/-- How the source fails once these bytes were given. -/
def faultAfter (s : ByteSource) (got : Bytes) : Option (Nat × IoError) :=
  s.fault.map (Prod.map (· - got.length) id)

@[simp] theorem faultAfter_nil : s.faultAfter [] = s.fault := Option.map_id'

/-- Bytes that are given one after the other bring the failure closer together. -/
theorem faultAfter_append {s' : ByteSource} {got : Bytes} (h : s'.fault = s.faultAfter got)
    (more : Bytes) : s'.faultAfter more = s.faultAfter (got ++ more) := by
  rw [faultAfter, h, faultAfter, faultAfter, Option.map_map]
  congr 1
  funext ⟨k, e⟩
  simp [Nat.sub_sub]

theorem faultAfter_eq_some {got : Bytes} {k : Nat} {e : IoError} :
    s.faultAfter got = some (k, e) ↔ ∃ k₀, s.fault = some (k₀, e) ∧ k = k₀ - got.length := by
  simp only [faultAfter, Option.map_eq_some_iff, Prod.exists, Prod.map_apply, Prod.mk.injEq, id]
  constructor
  · rintro ⟨k₀, _, hfault, rfl, rfl⟩
    exact ⟨k₀, hfault, rfl⟩
  · rintro ⟨k₀, hfault, rfl⟩
    exact ⟨k₀, e, hfault, rfl, rfl⟩

theorem Lasts.after {s' : ByteSource} {got : Bytes} (h : s.Lasts) (hrest : got ++ s'.rest = s.rest)
    (hfault : s'.fault = s.faultAfter got) : s'.Lasts := by
  intro k e hk
  obtain ⟨k₀, hk₀, rfl⟩ := faultAfter_eq_some.mp (hfault ▸ hk)
  have hlength := congrArg List.length hrest
  have := h k₀ e hk₀
  rw [List.length_append] at hlength
  omega

/-- A read of a source that does not fail yet gives the next bytes, and none only at the end. -/
theorem read_of_reaches {want : Nat} (h : s.Reaches want) (hwant : 0 < want) :
    ∃ got s', s.read want = .ok (got, s') ∧ got ++ s'.rest = s.rest ∧ got.length ≤ want ∧
      (got = [] → s.rest = []) ∧ s'.fault = s.faultAfter got := by
  have hgrant : 0 < s.grant want ∧ s.grant want ≤ want := by
    unfold grant
    cases hfault : s.fault with
    | none => cases s.bound s.reads <;> simp only <;> omega
    | some fault =>
      obtain ⟨k, e⟩ := fault
      have hk := h k e hfault
      cases s.bound s.reads <;> simp only <;> omega
  have hread : s.read want = .ok (s.rest.take (s.grant want), { s with
      rest := s.rest.drop (s.grant want)
      reads := s.reads + 1
      fault := s.faultAfter (s.rest.take (s.grant want)) }) := by
    unfold read
    split
    · rename_i e hfault
      have := h 0 e hfault
      omega
    · rfl
  refine ⟨_, _, hread, List.take_append_drop .., ?_, ?_, rfl⟩
  · rw [List.length_take]
    omega
  · intro hnil
    exact (List.take_eq_nil_iff.mp hnil).resolve_left (by omega)

theorem gather_of_reaches {fuel want : Nat} (h : s.Reaches want) (hfuel : want ≤ fuel)
    (done : Bytes) : ∃ s', gather fuel want done s = .ok (done.reverse ++ s.rest.take want, s') ∧
      s'.rest = s.rest.drop want ∧ s'.fault = s.faultAfter (s.rest.take want) := by
  induction fuel generalizing s want done with
  | zero =>
    obtain rfl : want = 0 := by omega
    exact ⟨s, by simp [gather], rfl, by simp⟩
  | succ fuel ih =>
    rw [gather]
    by_cases hzero : want = 0
    · exact ⟨s, by simp [hzero], by simp [hzero], by simp [hzero]⟩
    · obtain ⟨got, s₁, hread, hsplit, hlength, hnil, hfault⟩ := read_of_reaches h (by omega)
      rw [if_neg hzero, hread]
      cases got with
      | nil =>
        have hend := hnil rfl
        exact ⟨s₁, by simp [hend], by simpa [hend] using hsplit, by simpa [hend] using hfault⟩
      | cons b bs =>
        rw [List.length_cons] at hlength
        have htake : s.rest.take want = b :: bs ++ s₁.rest.take (want - (bs.length + 1)) := by
          rw [← hsplit, List.take_append, List.take_of_length_le (l := b :: bs) hlength,
            List.length_cons]
        have hreaches : s₁.Reaches (want - (bs.length + 1)) := by
          intro k e hk
          obtain ⟨k₀, hk₀, rfl⟩ := faultAfter_eq_some.mp (hfault ▸ hk)
          have := h k₀ e hk₀
          have hall := congrArg List.length hsplit
          simp only [List.length_append, List.length_cons] at hall ⊢
          omega
        obtain ⟨s₂, hgather, hrest, hfault₂⟩ := ih hreaches (by omega) ((b :: bs).reverse ++ done)
        refine ⟨s₂, ?_, ?_, ?_⟩
        · rw [htake]
          simpa using hgather
        · rw [hrest, ← hsplit, List.drop_append, List.drop_of_length_le (l := b :: bs) hlength]
          rfl
        · rw [hfault₂, htake, faultAfter_append hfault]

/-- What is read of a source before it fails. -/
theorem readUpTo_of_reaches {want : Nat} (h : s.Reaches want) :
    ∃ s', s.readUpTo want = .ok (s.rest.take want, s') ∧ s'.rest = s.rest.drop want ∧
      s'.fault = s.faultAfter (s.rest.take want) := by
  simpa [readUpTo] using gather_of_reaches h (Nat.le_refl want) []

theorem readUpTo_of_lasts (h : s.Lasts) (want : Nat) :
    ∃ s', s.readUpTo want = .ok (s.rest.take want, s') ∧ s'.rest = s.rest.drop want ∧
      s'.Lasts := by
  obtain ⟨s', hread, hrest, hfault⟩ := readUpTo_of_reaches (h.reaches want)
  exact ⟨s', hread, hrest, h.after (by rw [hrest, List.take_append_drop]) hfault⟩

theorem readExactly_of_lasts (h : s.Lasts) (want : Nat) (hwant : want ≤ s.rest.length) :
    ∃ s', s.readExactly want = .ok (s.rest.take want, s') ∧ s'.rest = s.rest.drop want ∧
      s'.Lasts := by
  obtain ⟨s', hread, hrest, hlasts⟩ := readUpTo_of_lasts h want
  refine ⟨s', ?_, hrest, hlasts⟩
  have hlength : ¬ (s.rest.take want).length < want := by
    rw [List.length_take]
    omega
  rw [readExactly, hread]
  simp only [hlength, if_false]

/-- A source that ends before there are enough bytes. -/
theorem readExactly_of_short (h : s.Lasts) {want : Nat} (hwant : s.rest.length < want) :
    s.readExactly want = .error .tooShort := by
  obtain ⟨s', hread, -⟩ := readUpTo_of_lasts h want
  rw [readExactly, hread, List.take_of_length_le (Nat.le_of_lt hwant)]
  simp only [hwant, if_true]

theorem readAll_of_lasts (h : s.Lasts) : s.readAll = .ok s.rest := by
  obtain ⟨s', hread, -⟩ := readUpTo_of_lasts h (s.rest.length + 1)
  rw [readAll, hread, List.take_of_length_le (by omega)]

theorem readAll_of_sound (h : s.fault = none) : s.readAll = .ok s.rest :=
  readAll_of_lasts (lasts_of_sound h)

/-- A source that fails before its end is not read to its end. -/
theorem gather_of_fault {k : Nat} {e : IoError} (hfault : s.fault = some (k, e))
    (hk : k ≤ s.rest.length) {fuel want : Nat} (hfuel : want ≤ fuel) (hwant : k < want)
    (done : Bytes) : gather fuel want done s = .error e := by
  induction fuel generalizing s k want done with
  | zero => omega
  | succ fuel ih =>
    rw [gather, if_neg (by omega)]
    cases k with
    | zero =>
      rw [read, hfault]
      rfl
    | succ k =>
      have hgrant : 0 < s.grant want ∧ s.grant want ≤ k + 1 := by
        unfold grant
        rw [hfault]
        cases s.bound s.reads <;> simp only <;> omega
      have hlength : (s.rest.take (s.grant want)).length = s.grant want := by
        rw [List.length_take]
        omega
      rw [read, hfault]
      dsimp only
      cases hgot : s.rest.take (s.grant want) with
      | nil =>
        rw [hgot] at hlength
        simp only [List.length_nil] at hlength
        omega
      | cons b bs =>
        rw [hgot] at hlength
        rw [List.length_cons] at hlength
        refine ih rfl ?_ (by omega) (by simp only [List.length_cons]; omega) _
        rw [List.length_drop, List.length_cons]
        omega

/-- What is read to its end lasts. -/
theorem lasts_of_readAll {bs : Bytes} (h : s.readAll = .ok bs) : s.Lasts ∧ s.rest = bs := by
  have hlasts : s.Lasts := fun k e hfault => by
    by_contra hk
    rw [readAll, readUpTo, gather_of_fault hfault (by omega) (Nat.le_refl _) (by omega)] at h
    cases h
  rw [readAll_of_lasts hlasts] at h
  exact ⟨hlasts, Except.ok.inj h⟩

theorem piecesFrom_of_lasts (h : s.Lasts) {fuel size : Nat} (hsize : 0 < size)
    (hfuel : s.rest.length < fuel) :
    piecesFrom fuel size s = (Bytes.pieces size s.rest).map .ok := by
  induction fuel generalizing s with
  | zero => omega
  | succ fuel ih =>
    obtain ⟨s', hread, hrest, hlasts⟩ := readUpTo_of_lasts h size
    rw [piecesFrom, hread]
    cases hbytes : s.rest with
    | nil => simp [Bytes.pieces]
    | cons b bs =>
      obtain ⟨size, rfl⟩ := Nat.exists_eq_succ_of_ne_zero (Nat.ne_of_gt hsize)
      rw [hbytes, List.drop_succ_cons] at hrest
      rw [hbytes, List.length_cons] at hfuel
      rw [List.take_succ_cons, Bytes.pieces, List.map_cons]
      simp only [Nat.succ_eq_add_one, Nat.add_sub_cancel]
      rw [ih hlasts (by rw [hrest, List.length_drop]; omega), hrest]

/-- A source that fails gives the pieces before the one in which it fails, and then the failure. -/
theorem piecesFrom_of_fault {k : Nat} {e : IoError} (hfault : s.fault = some (k, e))
    (hk : k ≤ s.rest.length) {fuel size : Nat} (hsize : 0 < size) (hfuel : k < fuel) :
    piecesFrom fuel size s =
      ((Bytes.pieces size s.rest).take (k / size)).map .ok ++ [.error e] := by
  induction fuel generalizing s k with
  | zero => omega
  | succ fuel ih =>
    rw [piecesFrom]
    by_cases hlast : k < size
    · rw [readUpTo, gather_of_fault hfault hk (Nat.le_refl size) hlast, Nat.div_eq_of_lt hlast]
      rfl
    · have hreaches : s.Reaches size := fun k' e' hfault' => by
        rw [hfault] at hfault'
        cases hfault'
        omega
      obtain ⟨s', hread, hrest, hfault'⟩ := readUpTo_of_reaches hreaches
      have hlength : (s.rest.take size).length = size := by
        rw [List.length_take]
        omega
      have hleft : s'.fault = some (k - size, e) :=
        hfault'.trans (faultAfter_eq_some.mpr ⟨k, hfault, by rw [hlength]⟩)
      have hpieces := ih hleft (by rw [hrest, List.length_drop]; omega) (by omega)
      obtain ⟨b, bs, hbytes⟩ := List.exists_cons_of_length_pos (l := s.rest) (by omega)
      obtain ⟨size, rfl⟩ := Nat.exists_eq_succ_of_ne_zero (Nat.ne_of_gt hsize)
      rw [hread, hbytes, List.take_succ_cons, Bytes.pieces, Nat.div_eq_sub_div hsize (by omega),
        List.take_succ_cons]
      rw [hbytes, List.drop_succ_cons] at hrest
      simp only [hpieces, hrest, Nat.succ_eq_add_one, Nat.add_sub_cancel, List.map_cons,
        List.cons_append]

/-- The pieces of a source that lasts are the pieces of its bytes. -/
theorem pieces_of_lasts (h : s.Lasts) (size : Nat) :
    s.pieces size = (Bytes.pieces size s.rest).map .ok := by
  rw [pieces, piecesFrom_of_lasts h (by omega) (by omega), Bytes.pieces_max]

/-- The pieces of a source that fails: as many full ones as it gives, and the failure. -/
theorem pieces_of_fault {k : Nat} {e : IoError} (hfault : s.fault = some (k, e))
    (hk : k ≤ s.rest.length) (size : Nat) : s.pieces size =
      ((Bytes.pieces size s.rest).take (k / max 1 size)).map .ok ++ [.error e] := by
  rw [pieces, piecesFrom_of_fault hfault hk (by omega) (by omega), Bytes.pieces_max]

theorem pieces_of_sound (h : s.fault = none) (size : Nat) :
    s.pieces size = (Bytes.pieces size s.rest).map .ok := pieces_of_lasts (lasts_of_sound h) size

end FeatureGraph.ByteSource
