-- The order of ids, and of the events in a log. Numbers of a fixed count of
-- digits have the order of their texts, so an id comes after every id of an
-- earlier stamp, and a log whose ids are all passed goes on with greater ones.
import FeatureGraph.Proofs.EventLog
import FeatureGraph.Proofs.Text.Words
import Mathlib.Algebra.Group.Nat.Defs

namespace FeatureGraph

/-! ## Digits -/

namespace Text

theorem lt_append_of_lt {a b : List Char} (h : a < b) (hlength : a.length = b.length)
    (x y : List Char) : a ++ x < b ++ y := by
  induction a generalizing b with
  | nil =>
    rw [List.eq_nil_of_length_eq_zero hlength.symm] at h
    exact absurd h (List.lt_irrefl [])
  | cons c rest ih =>
    cases b with
    | nil => cases hlength
    | cons d rest' =>
      rw [List.cons_append, List.cons_append, List.cons_lt_cons_iff]
      rcases List.cons_lt_cons_iff.mp h with hcd | ⟨hcd, hrest⟩
      · exact Or.inl hcd
      · exact Or.inr ⟨hcd, ih hrest (Nat.succ.inj hlength)⟩

theorem append_lt_append {x y : List Char} (h : x < y) (a : List Char) : a ++ x < a ++ y := by
  induction a with
  | nil => exact h
  | cons c rest ih =>
    rw [List.cons_append, List.cons_append, List.cons_lt_cons_iff]
    exact Or.inr ⟨rfl, ih⟩

theorem hexDigit_lt {m n : Nat} (h : m < n) (hn : n < 16) : hexDigit m < hexDigit n := by
  have hall : ∀ a b : Fin 16, a < b → hexDigit a < hexDigit b := by decide
  exact hall ⟨m, by omega⟩ ⟨n, hn⟩ h

theorem hexFixed_lt {width m n : Nat} (h : m < n) (hn : n < 16 ^ width) :
    hexFixed width m < hexFixed width n := by
  induction width generalizing m n with
  | zero => omega
  | succ width ih =>
    rw [hexFixed, hexFixed]
    have hfront : n / 16 < 16 ^ width := by
      rw [Nat.pow_succ] at hn
      omega
    by_cases hsame : m / 16 = n / 16
    · have hlast : hexDigit (m % 16) < hexDigit (n % 16) :=
        hexDigit_lt (by omega) (Nat.mod_lt _ (by decide))
      rw [hsame]
      exact append_lt_append (List.cons_lt_cons_iff.mpr (Or.inl hlast)) _
    · exact lt_append_of_lt (ih (by omega) hfront) (by simp) _ _

/-! ## Texts of hexadecimal digits -/

/-- A small hexadecimal digit. -/
def IsHexDigit (c : Char) : Prop := '0' ≤ c ∧ c ≤ '9' ∨ 'a' ≤ c ∧ c ≤ 'f'

instance (c : Char) : Decidable (IsHexDigit c) := inferInstanceAs (Decidable (_ ∨ _))

theorem isHexDigit_hexDigit {n : Nat} (h : n < 16) : IsHexDigit (hexDigit n) := by
  have hall : ∀ m : Fin 16, IsHexDigit (hexDigit m) := by decide
  exact hall ⟨n, h⟩

theorem isHexDigit_of_mem {width n : Nat} {c : Char} (h : c ∈ hexFixed width n) :
    IsHexDigit c := by
  induction width generalizing n with
  | zero => cases h
  | succ width ih =>
    rw [hexFixed, List.mem_append, List.mem_singleton] at h
    rcases h with h | rfl
    · exact ih h
    · exact isHexDigit_hexDigit (Nat.mod_lt _ (by decide))

theorem IsHexDigit.toNat_le {c : Char} (h : IsHexDigit c) : c.toNat ≤ 127 := by
  have hbound : ∀ d : Char, c ≤ d → d.toNat ≤ 127 → c.toNat ≤ 127 := by
    intro d hcd hd
    exact Nat.le_trans hcd hd
  rcases h with ⟨-, h⟩ | ⟨-, h⟩
  · exact hbound '9' h (by decide)
  · exact hbound 'f' h (by decide)

/-- Texts of ASCII have the order of their bytes. -/
theorem encode_lt {s t : String} (h : s < t) (hs : ∀ c ∈ s.toList, c.toNat ≤ 127)
    (ht : ∀ c ∈ t.toList, c.toNat ≤ 127) : encode s < encode t := by
  rw [String.lt_iff] at h
  rw [encode_eq, encode_eq, encode_ascii hs, encode_ascii ht]
  generalize s.toList = a at h hs
  generalize t.toList = b at h ht
  induction a generalizing b with
  | nil =>
    cases b with
    | nil => exact absurd h (List.lt_irrefl [])
    | cons d rest => exact List.nil_lt_cons _ _
  | cons c rest ih =>
    cases b with
    | nil => exact absurd h (List.not_lt_nil _)
    | cons d rest' =>
      obtain ⟨hc, hrest⟩ := List.forall_mem_cons.mp hs
      obtain ⟨hd, hrest'⟩ := List.forall_mem_cons.mp ht
      rw [List.map_cons, List.map_cons, List.cons_lt_cons_iff]
      rcases List.cons_lt_cons_iff.mp h with hcd | ⟨rfl, hlt⟩
      · left
        have hnat : c.toNat < d.toNat := hcd
        rw [UInt8.lt_iff_toNat_lt, UInt8.toNat_ofNat', UInt8.toNat_ofNat']
        omega
      · exact Or.inr ⟨rfl, ih hrest rest' hlt hrest'⟩

end Text

/-! ## Ids -/

theorem Event.mintId_lt {stamp stamp' : Nat} (h : stamp < stamp') (hfits : stamp' < 2 ^ 64)
    (suffix suffix' : Nat) : mintId stamp suffix < mintId stamp' suffix' := by
  rw [String.lt_iff, mintId, mintId, String.toList_ofList, String.toList_ofList]
  exact Text.lt_append_of_lt (Text.hexFixed_lt h hfits) (by simp) _ _

theorem Event.empty_lt_mintId (stamp suffix : Nat) : "" < mintId stamp suffix := by
  rw [String.lt_iff, mintId, String.toList_ofList]
  have hlength : (Text.hexFixed 16 stamp ++ Text.hexFixed 16 suffix).length = 32 := by simp
  cases h : Text.hexFixed 16 stamp ++ Text.hexFixed 16 suffix with
  | nil =>
    rw [h] at hlength
    cases hlength
  | cons c rest =>
    rw [String.toList_ofList]
    exact List.nil_lt_cons c rest

theorem Event.empty_le (id : String) : "" ≤ id := by
  rw [← String.not_lt, String.lt_iff]
  exact List.not_lt_nil _

namespace Event

/-- A text of 32 small hexadecimal digits. -/
def IsHexId (id : String) : Prop := id.length = 32 ∧ ∀ c ∈ id.toList, Text.IsHexDigit c

theorem isHexId_mintId (stamp suffix : Nat) : IsHexId (mintId stamp suffix) := by
  unfold IsHexId mintId
  rw [← String.length_toList, String.toList_ofList]
  refine ⟨by simp, fun c hc => ?_⟩
  rcases List.mem_append.mp hc with hc | hc
  · exact Text.isHexDigit_of_mem hc
  · exact Text.isHexDigit_of_mem hc

theorem IsHexId.ascii {id : String} (h : IsHexId id) : ∀ c ∈ id.toList, c.toNat ≤ 127 := by
  intro c hc
  exact (h.2 c hc).toNat_le

/-- The stamp of an id is read back. -/
theorem stampOf_mintId {stamp : Nat} (h : stamp < 2 ^ 64) (suffix : Nat) :
    stampOf (mintId stamp suffix) = stamp := by
  have hbytes : (Text.encode (mintId stamp suffix)).take 16 =
      (Text.hexFixed 16 stamp).map fun c => UInt8.ofNat c.toNat := by
    rw [Text.encode_eq, Text.encode_ascii (isHexId_mintId stamp suffix).ascii, mintId,
      String.toList_ofList, List.map_append, List.take_left']
    simp
  have hdigits : ((Text.hexFixed 16 stamp).map fun c => UInt8.ofNat c.toNat).map
      (fun b => Char.ofNat b.toNat) = Text.hexFixed 16 stamp := by
    rw [List.map_map]
    refine (List.map_congr_left fun c hc => ?_).trans (List.map_id _)
    have hc' : c.toNat ≤ 127 := (Text.isHexDigit_of_mem hc).toNat_le
    simp only [Function.comp_apply, UInt8.toNat_ofNat']
    rw [Nat.mod_eq_of_lt (by omega), Char.ofNat_toNat]
    rfl
  unfold stampOf
  simp only [hbytes, hdigits]
  cases hcons : Text.hexFixed 16 stamp with
  | nil =>
    have hlength : (Text.hexFixed 16 stamp).length = 16 := by simp
    rw [hcons] at hlength
    cases hlength
  | cons c rest =>
    have hplus : c ≠ '+' := by
      rintro rfl
      have hdigit : Text.IsHexDigit '+' :=
        Text.isHexDigit_of_mem (hcons ▸ List.mem_cons_self : '+' ∈ Text.hexFixed 16 stamp)
      exact absurd hdigit (by decide)
    have hread : Text.readHex (c :: rest) = some stamp := by
      rw [Text.readHex, ← hcons, Text.readHexFrom_hexFixed]
      simp only [Nat.zero_mul, Nat.zero_add, Option.some.injEq]
      exact Nat.mod_eq_of_lt h
    have hlength : ¬ (c :: rest).length < 16 := by
      rw [← hcons]
      simp
    simp [hplus, hread] at hlength ⊢
    omega

end Event

/-! ## Logs whose ids grow -/

namespace EventLog

variable {log log' : EventLog} {id : String}

/-- Every id that the log is yet to make comes after this one. A stamp has 64 bits. -/
def Passed (log : EventLog) (id : String) : Prop :=
  ∀ stamp suffix, log.lastStamp < stamp → stamp < 2 ^ 64 → id < Event.mintId stamp suffix

/-- Every id that the log is yet to make comes after all that it has. -/
def Growing (log : EventLog) : Prop := ∀ id data, log.entries.get? id = some data → log.Passed id

theorem Passed.mono (h : log.Passed id) (hle : log.lastStamp ≤ log'.lastStamp) :
    log'.Passed id := by
  intro stamp suffix hstamp hfits
  exact h stamp suffix (Nat.lt_of_le_of_lt hle hstamp) hfits

theorem passed_mintId {stamp : Nat} (h : stamp ≤ log.lastStamp) (suffix : Nat) :
    log.Passed (Event.mintId stamp suffix) := by
  intro stamp' suffix' hstamp hfits
  exact Event.mintId_lt (Nat.lt_of_le_of_lt h hstamp) hfits _ _

theorem growing_inMemory (channel : Channel) : (inMemory channel).Growing := by
  intro id data hget
  cases hget

/-! ## What a log holds -/

/-- The log with one more event, which was given this stamp. -/
def taking (log : EventLog) (stamp : Nat) (e : Event) : EventLog :=
  { log with lastStamp := stamp, entries := log.entries.insert e.id e.data }

variable {files files' : FileTree} {data : Json} {now : Int} {suffix : Nat} {e x : Event}
  {after : Option String}

/-- An event that is stored has a later id, and its line was written to the file. -/
theorem store_ok (h : log.store files data now suffix = (.ok e, log', files')) :
    ∃ stamp, log.lastStamp < stamp ∧ e = ⟨Event.mintId stamp suffix, data⟩ ∧
      log' = log.taking stamp e ∧ ∀ place, log.file = some place →
        log.write files place (Text.encode (e.line ++ "\n")) = .ok files' := by
  have hlater : log.lastStamp < log.nextStamp now := by
    unfold nextStamp
    omega
  refine ⟨log.nextStamp now, hlater, ?_⟩
  unfold store at h
  dsimp only at h
  generalize Event.mintId (log.nextStamp now) suffix = id at h ⊢
  split at h
  · rename_i hnone
    cases h
    exact ⟨rfl, rfl, fun place hplace => absurd (hnone.symm.trans hplace) (by simp)⟩
  · rename_i place hfile
    split at h
    · rename_i hwrite
      cases h
      refine ⟨rfl, rfl, fun place' hplace => ?_⟩
      obtain rfl : place = place' := Option.some.inj (hfile.symm.trans hplace)
      exact hwrite
    · cases h

theorem store_error {error : EventLogError}
    (h : log.store files data now suffix = (.error error, log', files')) :
    ∃ stamp, log.lastStamp < stamp ∧ log' = { log with lastStamp := stamp } := by
  have hlater : log.lastStamp < log.nextStamp now := by
    unfold nextStamp
    omega
  refine ⟨log.nextStamp now, hlater, ?_⟩
  unfold store at h
  dsimp only at h
  split at h
  · cases h
  · split at h
    · cases h
    · cases h
      rfl

/-- The log holds the event. -/
def Holds (log : EventLog) (e : Event) : Prop := log.entries.get? e.id = some e.data

theorem mem_since : e ∈ log.since after ↔ log.Holds e ∧ ∀ id, after = some id → id < e.id := by
  obtain ⟨id, data⟩ := e
  rw [Holds, Dictionary.get?_eq_some, since]
  cases after <;> simp

theorem sorted_since (log : EventLog) (after : Option String) :
    (log.since after).Pairwise (·.id < ·.id) := by
  rw [since, List.pairwise_map]
  exact log.entries.sorted.sublist List.filter_sublist

theorem holds_taking {stamp : Nat} :
    (log.taking stamp x).Holds e ↔ e = x ∨ e.id ≠ x.id ∧ log.Holds e := by
  obtain ⟨id, data⟩ := e
  obtain ⟨id', data'⟩ := x
  simp only [Holds, taking, Dictionary.get?_insert, Event.mk.injEq]
  split
  · rename_i h
    simp [h, eq_comm]
  · rename_i h
    simp [h]

end EventLog

end FeatureGraph
