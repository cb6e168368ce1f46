-- Storage keys come apart again as they were put together, as long as the
-- separator cannot begin a second time within itself. Where it can, a feature
-- may complete a later separator, and two features of two entities may have
-- one key.
import FeatureGraph.Storage.Key

namespace FeatureGraph.KeyScheme

/-! ## The last place of a separator -/

section Lists

variable {sep text before after front feature : List Char}

theorem eq_of_splitLast (h : splitLast sep text = some (before, after)) :
    text = before ++ sep ++ after := by
  induction text generalizing before with
  | nil =>
    rw [splitLast] at h
    split at h
    · rename_i hsep
      cases h
      simpa using hsep
    · cases h
  | cons c rest ih =>
    rw [splitLast] at h
    split at h
    · rename_i inner after' hrest
      cases h
      rw [ih hrest]
      rfl
    · split at h
      · rename_i hfirst
        cases h
        exact List.prefix_iff_eq_append.mp (List.isPrefixOf_iff_prefix.mp hfirst) |>.symm
      · cases h

/-- A separator is found, and not before one that is known. -/
theorem splitLast_known (sep before after : List Char) :
    ∃ before' after', splitLast sep (before ++ sep ++ after) = some (before', after') ∧
      before.length ≤ before'.length := by
  induction before with
  | nil =>
    simp only [List.nil_append, List.length_nil, Nat.zero_le, and_true]
    cases hlist : sep ++ after with
    | nil =>
      obtain ⟨rfl, -⟩ := List.append_eq_nil_iff.mp hlist
      exact ⟨[], [], rfl⟩
    | cons c rest =>
      have hfirst : sep.isPrefixOf (c :: rest) = true :=
        List.isPrefixOf_iff_prefix.mpr ⟨after, hlist⟩
      rw [splitLast]
      cases splitLast sep rest with
      | none => exact ⟨_, _, if_pos hfirst⟩
      | some found => exact ⟨_, _, rfl⟩
  | cons c rest ih =>
    obtain ⟨before', after', hfound, hle⟩ := ih
    refine ⟨c :: before', after', ?_, Nat.succ_le_succ hle⟩
    rw [List.cons_append, List.cons_append, splitLast, hfound]

/-- What stands in front of a text with a separator does not matter. -/
theorem splitLast_append (h : splitLast sep text = some (before, after)) (front : List Char) :
    splitLast sep (front ++ text) = some (front ++ before, after) := by
  induction front with
  | nil => exact h
  | cons c rest ih => rw [List.cons_append, splitLast, ih, List.cons_append]

/-- A text in which no separator is found has none in it. -/
theorem not_mem_of_splitLast (h : splitLast sep text = none) {inner rest : List Char} :
    text ≠ inner ++ (sep ++ rest) := fun heq => by
  obtain ⟨_, _, hfound, -⟩ := splitLast_known sep inner rest
  rw [List.append_assoc, ← heq, h] at hfound
  cases hfound

/-- The last separator in front of a feature that has none in it is the one that was put there,
or begins within that one. -/
theorem splitLast_sep_append (h : splitLast sep feature = none) :
    ∃ shift rest, splitLast sep (sep ++ feature) = some (shift, rest) ∧
      (shift = [] ∧ rest = feature ∨
        ∃ border missing, shift ≠ [] ∧ border ≠ [] ∧ sep = shift ++ border ∧
          sep = border ++ missing ∧ feature = missing ++ rest) := by
  obtain ⟨shift, rest, hfound, -⟩ := splitLast_known sep [] feature
  rw [List.nil_append] at hfound
  refine ⟨shift, rest, hfound, ?_⟩
  have heq : sep ++ feature = shift ++ (sep ++ rest) := by
    rw [eq_of_splitLast hfound, List.append_assoc]
  rcases List.append_eq_append_iff.mp heq with ⟨inner, -, hfeature⟩ | ⟨border, hsep, hlater⟩
  · exact absurd hfeature (not_mem_of_splitLast h)
  · by_cases hshift : shift = []
    · subst hshift
      rw [List.nil_append] at heq
      exact Or.inl ⟨rfl, (List.append_cancel_left heq).symm⟩
    · obtain ⟨missing, hmissing, hfeature⟩ | ⟨inner, hborder, -⟩ :=
        (List.append_eq_append_iff.mp hlater).symm
      · refine Or.inr ⟨border, missing, hshift, fun hborder => ?_, hsep, hmissing, hfeature⟩
        -- without a border the feature begins with the whole separator
        subst hborder
        rw [List.nil_append] at hmissing
        subst hmissing
        exact not_mem_of_splitLast h (hfeature.trans (List.nil_append _).symm)
      · have hlength := congrArg List.length hsep
        rw [hborder, List.length_append, List.length_append] at hlength
        exact absurd (List.eq_nil_of_length_eq_zero (by omega)) hshift

theorem splitLast_short (hle : text.length ≤ sep.length) (hne : text ≠ sep) :
    splitLast sep text = none := by
  cases hfound : splitLast sep text with
  | none => rfl
  | some found =>
    obtain ⟨before, after⟩ := found
    have heq := eq_of_splitLast hfound
    have hlength := congrArg List.length heq
    simp only [List.length_append] at hlength
    have hbefore : before = [] := List.eq_nil_of_length_eq_zero (by omega)
    have hafter : after = [] := List.eq_nil_of_length_eq_zero (by omega)
    rw [hbefore, hafter] at heq
    exact absurd (by simpa using heq) hne

theorem exists_other_end (text : List Char) : ∃ c, ∀ front, front ++ [c] ≠ text := by
  rcases List.eq_nil_or_concat text with rfl | ⟨init, last, rfl⟩
  · exact ⟨'a', by simp⟩
  · have hne : (if last = 'a' then 'b' else 'a') ≠ last := by
      split
      · rename_i h
        rw [h]
        decide
      · rename_i h
        exact fun heq => h heq.symm
    refine ⟨if last = 'a' then 'b' else 'a', fun front h => hne ?_⟩
    rw [List.concat_eq_append] at h
    exact (List.cons.inj (List.append_inj' h rfl).2).1

end Lists

/-! ## Separators that begin within themselves -/

/-- An end of the separator is also a front of it: a second separator can begin within it. -/
def Bordered (sep : String) : Prop :=
  ∃ shift border missing : String, shift ≠ "" ∧ border ≠ "" ∧ sep = shift ++ border ∧
    sep = border ++ missing

/-- A second separator begins within the separator, and the feature begins with what is missing
of it. -/
def Completes (sep feature : String) : Prop :=
  ∃ shift border missing rest : String, shift ≠ "" ∧ border ≠ "" ∧ sep = shift ++ border ∧
    sep = border ++ missing ∧ feature = missing ++ rest

variable {sep id id' feature feature' : String}

theorem Completes.bordered (h : Completes sep feature) : Bordered sep := by
  obtain ⟨shift, border, missing, -, hshift, hborder, hsep, hsep', -⟩ := h
  exact ⟨shift, border, missing, hshift, hborder, hsep, hsep'⟩

/-- A separator of one character cannot begin within itself. -/
theorem not_bordered_of_length_eq_one (h : sep.length = 1) : ¬ Bordered sep := by
  rintro ⟨shift, border, missing, hshift, hborder, rfl, -⟩
  have hlong : shift.length ≠ 0 ∧ border.length ≠ 0 := by
    simpa [String.length_eq_zero_iff] using ⟨hshift, hborder⟩
  rw [String.length_append] at h
  omega

theorem validate_eq_ok : (delimited sep).validate feature = .ok () ↔
    feature ≠ "" ∧ splitLast sep.toList feature.toList = none := by
  simp [delimited, occurs]

/-- Only a key with the separator comes apart. -/
theorem occurs_of_decompose {key : String} (h : (delimited sep).decompose key = .ok (id, feature)) :
    occurs sep key = true := by
  simp only [delimited] at h
  split at h
  · rename_i hfound
    rw [occurs, hfound]
    rfl
  · cases h

/-- A key always comes apart, and the parts make the same key. They are the ones it was built of,
unless the feature completes a later separator. -/
theorem decompose_build (h : (delimited sep).validate feature = .ok ()) (id : String) :
    ∃ shift rest, (delimited sep).decompose ((delimited sep).build id feature) =
        .ok (id ++ shift, rest) ∧
      (shift = "" ∧ rest = feature ∨ shift ≠ "" ∧ Completes sep feature) := by
  obtain ⟨shift, rest, hfound, hcases⟩ := splitLast_sep_append (validate_eq_ok.mp h).2
  refine ⟨String.ofList shift, String.ofList rest, ?_, ?_⟩
  · simp only [delimited, String.toList_append, List.append_assoc,
      splitLast_append hfound id.toList, String.ofList_append, String.ofList_toList]
  · rcases hcases with ⟨rfl, rfl⟩ | ⟨border, missing, hshift, hborder, hsep, hsep', hfeature⟩
    · exact Or.inl ⟨rfl, String.ofList_toList⟩
    · refine Or.inr ⟨by simpa using hshift, String.ofList shift, String.ofList border,
        String.ofList missing, String.ofList rest, by simpa using hshift, by simpa using hborder,
        ?_, ?_, ?_⟩
      all_goals
        apply String.toList_inj.mp
        simpa using by assumption

/-- What a feature completes, it may as well leave to the id. -/
theorem build_shift {shift border missing : String} (hsep : sep = shift ++ border)
    (hsep' : sep = border ++ missing) (id rest : String) :
    (delimited sep).build id (missing ++ rest) = (delimited sep).build (id ++ shift) rest :=
  calc id ++ sep ++ (missing ++ rest)
      _ = id ++ (shift ++ border) ++ (missing ++ rest) := by rw [← hsep]
      _ = id ++ shift ++ (border ++ missing) ++ rest := by simp only [String.append_assoc]
      _ = id ++ shift ++ sep ++ rest := by rw [← hsep']

/-- A feature that completes a later separator is taken for less than it is. -/
theorem decompose_build_ne (h : Completes sep feature) (id : String) :
    (delimited sep).decompose ((delimited sep).build id feature) ≠ .ok (id, feature) := by
  obtain ⟨shift, border, missing, rest, hshift, -, hsep, hsep', rfl⟩ := h
  intro hsame
  rw [build_shift hsep hsep'] at hsame
  obtain ⟨before, after, hfound, hle⟩ :=
    splitLast_known sep.toList (id ++ shift).toList rest.toList
  simp only [delimited, String.toList_append] at hsame hfound
  rw [hfound] at hsame
  have hbefore : before = id.toList := by
    have hparts := Prod.mk.inj (Except.ok.inj hsame)
    rw [← hparts.1, String.toList_ofList]
  rw [hbefore, String.toList_append, List.length_append] at hle
  exact hshift (String.toList_eq_nil_iff.mp (List.eq_nil_of_length_eq_zero (by omega)))

theorem decompose_build_iff (h : (delimited sep).validate feature = .ok ()) (id : String) :
    (delimited sep).decompose ((delimited sep).build id feature) = .ok (id, feature) ↔
      ¬ Completes sep feature := by
  refine ⟨fun hsame hcompletes => decompose_build_ne hcompletes id hsame, fun hfree => ?_⟩
  obtain ⟨shift, rest, hsame, ⟨rfl, rfl⟩ | ⟨-, hcompletes⟩⟩ := decompose_build h id
  · rw [hsame, String.append_empty]
  · exact absurd hcompletes hfree

/-- A separator that begins within itself makes one key of two pairs of accepted parts. -/
theorem shared_of_bordered (h : Bordered sep) : ∃ id id' feature feature', id ≠ id' ∧
    (delimited sep).validate feature = .ok () ∧ (delimited sep).validate feature' = .ok () ∧
      (delimited sep).build id feature = (delimited sep).build id' feature' := by
  obtain ⟨shift, border, missing, hshift, hborder, hsep, hsep'⟩ := h
  obtain ⟨c, hc⟩ := exists_other_end sep.toList
  have hlong : 0 < shift.toList.length ∧ 0 < border.toList.length := by
    simpa [List.length_pos_iff] using ⟨hshift, hborder⟩
  have hlength : sep.toList.length = shift.toList.length + border.toList.length := by
    rw [hsep, String.toList_append, List.length_append]
  have hlength' : sep.toList.length = border.toList.length + missing.toList.length := by
    rw [hsep', String.toList_append, List.length_append]
  have haccepted : ∀ front : String, front.toList.length < sep.toList.length →
      (delimited sep).validate (front ++ String.singleton c) = .ok () := by
    intro front hfront
    rw [validate_eq_ok, String.toList_append, String.toList_singleton]
    refine ⟨fun hempty => ?_, splitLast_short ?_ (hc _)⟩
    · simpa using congrArg String.toList hempty
    · rw [List.length_append, List.length_singleton]
      exact hfront
  refine ⟨"", shift, missing ++ String.singleton c, "" ++ String.singleton c, hshift.symm,
    haccepted _ (by omega), haccepted _ (by simpa using by omega), ?_⟩
  rw [build_shift hsep hsep']
  simp

/-- Keys of two pairs are different, unless one of the features completes a later separator. -/
theorem eq_of_build_eq (h : (delimited sep).validate feature = .ok ())
    (h' : (delimited sep).validate feature' = .ok ()) (hfree : ¬ Completes sep feature)
    (hfree' : ¬ Completes sep feature')
    (heq : (delimited sep).build id feature = (delimited sep).build id' feature') :
    id = id' ∧ feature = feature' := by
  have hparts := (decompose_build_iff h id).mpr hfree
  rw [heq, (decompose_build_iff h' id').mpr hfree'] at hparts
  exact (Prod.mk.inj (Except.ok.inj hparts)).imp Eq.symm Eq.symm

/-- A key comes apart as it was built just when the feature does not complete a later separator;
two such keys are never the same, and no two accepted keys are, just when the separator does not
begin within itself. -/
theorem parts_are_kept_unless_completed (sep : String) :
    (∀ id feature, (delimited sep).validate feature = .ok () →
      ((delimited sep).decompose ((delimited sep).build id feature) = .ok (id, feature) ↔
        ¬ Completes sep feature)) ∧
    (∀ id feature id' feature', (delimited sep).validate feature = .ok () →
      (delimited sep).validate feature' = .ok () →
      ¬ Completes sep feature → ¬ Completes sep feature' →
      (delimited sep).build id feature = (delimited sep).build id' feature' →
      id = id' ∧ feature = feature') ∧
    ((∀ id feature id' feature', (delimited sep).validate feature = .ok () →
      (delimited sep).validate feature' = .ok () →
      (delimited sep).build id feature = (delimited sep).build id' feature' →
      id = id' ∧ feature = feature') ↔ ¬ Bordered sep) := by
  refine ⟨fun id feature h => decompose_build_iff h id,
    fun id feature id' feature' h h' hfree hfree' heq => eq_of_build_eq h h' hfree hfree' heq,
    fun hinjective hbordered => ?_, fun hfree id feature id' feature' h h' heq => ?_⟩
  · obtain ⟨id, id', feature, feature', hne, h, h', heq⟩ := shared_of_bordered hbordered
    exact hne (hinjective id feature id' feature' h h' heq).1
  · exact eq_of_build_eq h h' (fun hc => hfree hc.bordered) (fun hc => hfree hc.bordered) heq

/-- An id that ends in a part of the separator is kept apart from a feature that does not go on
with the other part. -/
theorem count_is_kept : (delimited "__").validate "count" = .ok () ∧ ¬ Completes "__" "count" ∧
    (delimited "__").decompose ((delimited "__").build "a_" "count") = .ok ("a_", "count") := by
  have haccepted : (delimited "__").validate "count" = .ok () := rfl
  have hfree : ¬ Completes "__" "count" := fun h => decompose_build_ne h "" rfl
  exact ⟨haccepted, hfree,
    ((parts_are_kept_unless_completed "__").1 "a_" "count" haccepted).mpr hfree⟩

/-- The feature `a` is accepted beside the separator `aa`, and is lost to the id; so is the front
of `ab`, whose key is also that of another entity's feature `b`. -/
theorem front_is_lost : (delimited "aa").validate "a" = .ok () ∧
    (delimited "aa").decompose ((delimited "aa").build "x" "a") = .ok ("xa", "") ∧
    (delimited "aa").validate "ab" = .ok () ∧ (delimited "aa").validate "b" = .ok () ∧
    (delimited "aa").build "x" "ab" = (delimited "aa").build "xa" "b" :=
  ⟨rfl, rfl, rfl, rfl, rfl⟩

end FeatureGraph.KeyScheme
