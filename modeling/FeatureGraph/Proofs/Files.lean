-- The laws of the tree of files: what stands at a place after something was
-- put there, and that nothing else has changed.
import FeatureGraph.Files.Tree

namespace FeatureGraph.FileTree

variable {t t' : FileTree} {p q : Path}

theorem lookup_filter_ne (h : q ≠ p) (l : List (Path × FileEntry)) :
    (l.filter (·.1 ≠ p)).lookup q = l.lookup q := by
  induction l with
  | nil => rfl
  | cons e rest ih =>
    obtain ⟨place, entry⟩ := e
    by_cases hplace : place = p
    · subst hplace
      have hne : (q == place) = false := beq_eq_false_iff_ne.mpr h
      rw [List.filter_cons_of_neg (by simp), ih, List.lookup_cons, hne]
    · rw [List.filter_cons_of_pos (by simpa using hplace), List.lookup_cons, List.lookup_cons, ih]

theorem lookup_put_ne (h : q ≠ p) (e : FileEntry) : (t.put p e).lookup q = t.lookup q := by
  have hne : (q == p) = false := beq_eq_false_iff_ne.mpr h
  unfold lookup put
  rw [List.lookup_cons, hne, lookup_filter_ne h]

/-- What was put somewhere stands there, unless a folder stood there. -/
theorem lookup_put_self (h : t.lookup p ≠ some .folder) (e : FileEntry) :
    (t.put p e).lookup p = some e := by
  unfold lookup at h ⊢
  split at h
  · exact absurd rfl h
  · rename_i hplain
    rw [if_neg hplain, put, List.lookup_cons, beq_self_eq_true]

/-- What is added to a file is put in its place. -/
theorem append_eq_put {more : Bytes} (h : t.append p more = .ok t') :
    ∃ content, t' = t.put p (.file content) := by
  unfold append at h
  split at h
  · cases h
  · cases h
    exact ⟨_, rfl⟩
  · split at h
    · cases h
      exact ⟨_, rfl⟩
    · cases h
    · cases h

theorem lookup_append_ne {more : Bytes} (h : t.append p more = .ok t') (hne : q ≠ p) :
    t'.lookup q = t.lookup q := by
  obtain ⟨content, rfl⟩ := append_eq_put h
  exact lookup_put_ne hne _

/-- The bytes of the file at a place, none if there is no file. -/
def contentAt (t : FileTree) (p : Path) : Bytes :=
  match t.lookup p with
  | some (.file content) => content
  | _ => []

/-- What is added to a file stands behind what was there. -/
theorem lookup_append_self {more : Bytes} (h : t.append p more = .ok t') :
    t'.lookup p = some (.file (t.contentAt p ++ more)) := by
  unfold append at h
  unfold contentAt
  split at h
  · cases h
  · rename_i content hfile
    cases h
    rw [lookup_put_self (by simp [hfile]), hfile]
  · rename_i hnone
    split at h
    · cases h
      rw [lookup_put_self (by simp [hnone]), hnone]
      rfl
    · cases h
    · cases h

/-! ## Making a folder again -/

/-- Folders that stand stay. -/
theorem makeFolders_keeps {names : List String} (h : t.lookup q = some .folder) :
    (t.makeFolders p names).2.lookup q = some .folder := by
  induction names generalizing t p with
  | nil => exact h
  | cons name rest ih =>
    rw [makeFolders]
    split
    · exact h
    · exact ih h
    · exact h
    · rename_i hnone
      refine ih ?_
      rw [lookup_put_ne, h]
      rintro rfl
      rw [hnone] at h
      cases h

/-- Where all folders of the way stand, they are found and none is made. -/
theorem makeFolders_again {names : List String} {root : Path}
    (h : t.makeFolders p names = (.ok root, t'))
    {u : FileTree} (hkept : ∀ q, t'.lookup q = some .folder → u.lookup q = some .folder) :
    u.makeFolders p names = (.ok root, u) ∧
      (u.lookup p = some .folder → ∃ place, u.walk p names = .ok place) := by
  induction names generalizing t p with
  | nil =>
    cases h
    exact ⟨rfl, fun _ => ⟨_, rfl⟩⟩
  | cons name rest ih =>
    -- in each case the next place is a folder in the end
    have hnext {t₁ : FileTree} (hsome : t₁.lookup (step p name) = some .folder)
        (hname : textFault? longestName name = none)
        (h : t₁.makeFolders (step p name) rest = (.ok root, t')) :
        u.makeFolders p (name :: rest) = (.ok root, u) ∧
          (u.lookup p = some .folder → ∃ place, u.walk p (name :: rest) = .ok place) := by
      have hfolder : u.lookup (step p name) = some .folder := by
        refine hkept _ ?_
        have hstays : (t₁.makeFolders (step p name) rest).2.lookup (step p name) =
            some .folder := makeFolders_keeps hsome
        rw [h] at hstays
        exact hstays
      obtain ⟨hagain, hwalk⟩ := ih h
      refine ⟨?_, fun hp => ?_⟩
      · simp only [makeFolders, hname, hfolder, hagain]
      · obtain ⟨place, hplace⟩ := hwalk hfolder
        exact ⟨place, by simp only [walk, hp, hname, hplace]⟩
    rw [makeFolders] at h
    split at h
    · cases h
    · rename_i hname hsome
      exact hnext hsome hname h
    · cases h
    · rename_i hname hnone
      refine hnext ?_ hname h
      exact lookup_put_self (by simp [hnone]) .folder

/-- A folder that was made is found again as long as no folder is lost. -/
theorem makeFolder_again {text : String} {root : Path} (h : t.makeFolder text = (.ok root, t'))
    {u : FileTree} (hkept : ∀ q, t'.lookup q = some .folder → u.lookup q = some .folder) :
    u.makeFolder text = (.ok root, u) := by
  have hmade : textFault? longestPath text = none ∧
      t.makeFolders [] (names text) = (.ok root, t') := by
    unfold makeFolder at h
    split at h
    · cases h
    · rename_i hname
      refine ⟨hname, ?_⟩
      split at h
      · exact h
      · exact h
      · cases h
  obtain ⟨hname, hmade⟩ := hmade
  obtain ⟨hagain, hwalk⟩ := makeFolders_again hmade hkept
  obtain ⟨place, hplace⟩ := hwalk rfl
  simp only [makeFolder, hname, hplace, hagain]

/-- The place that was made is a folder. -/
theorem lookup_of_makeFolders {names : List String} {root : Path}
    (h : t.makeFolders p names = (.ok root, t')) (hfolder : t.lookup p = some .folder) :
    t'.lookup root = some .folder := by
  induction names generalizing t p with
  | nil =>
    cases h
    exact hfolder
  | cons name rest ih =>
    rw [makeFolders] at h
    split at h
    · cases h
    · rename_i hsome
      exact ih h hsome
    · cases h
    · rename_i hnone
      exact ih h (lookup_put_self (by simp [hnone]) .folder)

theorem makeFolder_eq_ok {text : String} {root : Path} (h : t.makeFolder text = (.ok root, t')) :
    t'.lookup root = some .folder ∧ t'.makeFolder text = (.ok root, t') := by
  refine ⟨?_, makeFolder_again h fun q hq => hq⟩
  unfold makeFolder at h
  split at h
  · cases h
  · split at h
    · exact lookup_of_makeFolders h rfl
    · exact lookup_of_makeFolders h rfl
    · cases h

theorem names_d : names "d" = ["d"] := by
  have hsplit : "d".splitOn "/" = ["d"] := by
    rw [String.splitOn, if_neg (by decide), String.splitOnAux, if_neg (by decide +kernel),
      if_neg (by decide +kernel), String.splitOnAux, if_pos (by decide +kernel)]
    decide +kernel
  unfold names
  rw [hsplit]
  decide +kernel

/-- Nothing but the folder is made. -/
theorem makeFolder_d : empty.makeFolder "d" = (.ok ["d"], ⟨[(["d"], .folder)]⟩) := by
  unfold makeFolder
  rw [names_d]
  with_unfolding_all rfl

/-- A file is not put in the place of a folder. -/
theorem replaceFile_ne_folder {folder : Path} {room : Nat} {name : String} {content : Bytes}
    (h : t.replaceFile folder room name content = .ok t') :
    t.lookup (folder ++ [name]) ≠ some .folder := by
  unfold replaceFile at h
  split at h
  · cases h
  · cases h
  · rename_i hfolder
    exact hfolder

theorem replaceFile_eq_put {folder : Path} {room : Nat} {name : String} {content : Bytes}
    (h : t.replaceFile folder room name content = .ok t') :
    t' = t.put (folder ++ [name]) (.file content) := by
  unfold replaceFile at h
  split at h
  · cases h
  · cases h
  · exact (Except.ok.inj h).symm

/-- A file that was given its name stands there with all of its bytes, and nothing else has
changed. -/
theorem replaceFile_eq_ok {folder : Path} {room : Nat} {name : String} {content : Bytes}
    (h : t.replaceFile folder room name content = .ok t') :
    t'.lookup (folder ++ [name]) = some (.file content) ∧
      ∀ q, q ≠ folder ++ [name] → t'.lookup q = t.lookup q := by
  have hfolder := replaceFile_ne_folder h
  rw [replaceFile_eq_put h]
  exact ⟨lookup_put_self hfolder _, fun q hq => lookup_put_ne hq _⟩

end FeatureGraph.FileTree
