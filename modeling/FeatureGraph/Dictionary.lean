-- Dictionaries: values under text keys, kept in the order of the keys. The
-- order is part of the type, so two dictionaries that answer every lookup
-- alike are equal.

namespace FeatureGraph

universe u v

/-- Values under text keys. The entries stand in the order of their keys, and no key
stands twice. -/
structure Dictionary (α : Type u) where
  entries : List (String × α)
  sorted : entries.Pairwise (fun a b => a.1 < b.1)

namespace Dictionary

variable {α : Type u} {β : Type v}

/-! ## Sorted entries -/

/-- Puts a value at its place among sorted entries; a value under the same key gives way. -/
def place (key : String) (value : α) : List (String × α) → List (String × α)
  | [] => [(key, value)]
  | e :: rest =>
    if key < e.1 then (key, value) :: e :: rest
    else if key = e.1 then (key, value) :: rest
    else e :: place key value rest

/-- The value under a key among entries. -/
def find (key : String) : List (String × α) → Option α
  | [] => none
  | e :: rest => if key = e.1 then some e.2 else find key rest

theorem mem_place {key : String} {value : α} {e : String × α} {l : List (String × α)}
    (h : e ∈ place key value l) : e = (key, value) ∨ e ∈ l := by
  induction l with
  | nil => simpa [place] using h
  | cons a rest ih =>
    rw [place] at h
    split at h
    · simpa using h
    · split at h
      · rcases List.mem_cons.mp h with h | h
        · exact Or.inl h
        · exact Or.inr (List.mem_cons_of_mem _ h)
      · rcases List.mem_cons.mp h with h | h
        · exact Or.inr (h ▸ List.mem_cons_self)
        · exact (ih h).imp id (List.mem_cons_of_mem _)

theorem sorted_place (key : String) (value : α) {l : List (String × α)}
    (h : l.Pairwise (fun a b => a.1 < b.1)) :
    (place key value l).Pairwise (fun a b => a.1 < b.1) := by
  induction l with
  | nil => simp [place]
  | cons a rest ih =>
    obtain ⟨ha, hrest⟩ := List.pairwise_cons.mp h
    rw [place]
    split
    · rename_i hlt
      refine List.pairwise_cons.mpr ⟨fun b hb => ?_, h⟩
      rcases List.mem_cons.mp hb with hb | hb
      · exact hb ▸ hlt
      · exact String.lt_trans hlt (ha b hb)
    · rename_i hlt
      split
      · rename_i heq
        exact List.pairwise_cons.mpr ⟨fun b hb => heq ▸ ha b hb, hrest⟩
      · rename_i hne
        refine List.pairwise_cons.mpr ⟨fun b hb => ?_, ih hrest⟩
        rcases mem_place hb with hb | hb
        · subst hb
          exact Std.lt_of_le_of_ne (String.not_lt.mp hlt) (Ne.symm hne)
        · exact ha b hb

/-! ## Operations -/

/-- The dictionary without entries. -/
def empty : Dictionary α := ⟨[], List.Pairwise.nil⟩

instance : Inhabited (Dictionary α) := ⟨empty⟩

/-- The value under a key. -/
def get? (d : Dictionary α) (key : String) : Option α := find key d.entries

/-- Whether a value stands under the key. -/
def contains (d : Dictionary α) (key : String) : Bool := (d.get? key).isSome

/-- Puts a value under a key, in place of the one that stood there. -/
def insert (d : Dictionary α) (key : String) (value : α) : Dictionary α :=
  ⟨place key value d.entries, sorted_place key value d.sorted⟩

/-- The entries whose key passes the test. -/
def filter (d : Dictionary α) (p : String → Bool) : Dictionary α :=
  ⟨d.entries.filter (fun e => p e.1), d.sorted.sublist List.filter_sublist⟩

/-- Takes a key and its value out. -/
def erase (d : Dictionary α) (key : String) : Dictionary α := d.filter (· ≠ key)

/-- Every value changed, under its key. -/
def map (f : α → β) (d : Dictionary α) : Dictionary β :=
  ⟨d.entries.map (fun e => (e.1, f e.2)), by
    rw [List.pairwise_map]; exact d.sorted⟩

/-- The entries in key order. -/
def toList (d : Dictionary α) : List (String × α) := d.entries

/-- The keys in order. -/
def keys (d : Dictionary α) : List String := d.entries.map (·.1)

/-- The values in the order of their keys. -/
def values (d : Dictionary α) : List α := d.entries.map (·.2)

/-- How many entries there are. -/
def size (d : Dictionary α) : Nat := d.entries.length

def isEmpty (d : Dictionary α) : Bool := d.entries.isEmpty

/-- The entries of a list; of two under one key, the later stays. -/
def ofList (l : List (String × α)) : Dictionary α :=
  l.foldl (fun d e => d.insert e.1 e.2) empty

/-! ## What a lookup answers -/

@[simp] theorem get?_empty (key : String) : (empty : Dictionary α).get? key = none := rfl

theorem find_place (key k : String) (value : α) (l : List (String × α)) :
    find k (place key value l) = if k = key then some value else find k l := by
  induction l with
  | nil => simp [place, find]
  | cons a rest ih =>
    rw [place]
    split
    · simp [find]
    · split
      · rename_i heq
        by_cases h : k = key
        · simp [find, h]
        · simp [find, h, heq ▸ h]
      · rename_i hne
        by_cases h : k = a.1
        · have hk : ¬ k = key := fun hk => hne (hk ▸ h)
          simp [find, h, h ▸ hk]
        · simp [find, h, ih]

theorem get?_insert (d : Dictionary α) (key k : String) (value : α) :
    (d.insert key value).get? k = if k = key then some value else d.get? k :=
  find_place key k value d.entries

@[simp] theorem get?_insert_self (d : Dictionary α) (key : String) (value : α) :
    (d.insert key value).get? key = some value := by
  simp [get?_insert]

end Dictionary

end FeatureGraph
