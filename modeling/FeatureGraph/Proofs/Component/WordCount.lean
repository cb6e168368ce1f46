-- What a word count counts: under each word in lower case how often it
-- occurs, however the words were parted into lists.
import FeatureGraph.Component.WordCount

namespace FeatureGraph.Component.WordCount

/-- The table of these words. -/
def tally (ws : List String) : Dictionary Nat := ws.foldl countWord Dictionary.empty

theorem countAll_words (table : Dictionary Nat) (lists : List (List String)) :
    countAll table (lists.map .words) = .ok (lists.flatten.foldl countWord table) := by
  induction lists generalizing table with
  | nil => rfl
  | cons ws rest ih => rw [List.map_cons, countAll, ih, List.flatten_cons, List.foldl_append]

theorem get?_foldl_countWord (ws : List String) (table : Dictionary Nat) (key : String) :
    (ws.foldl countWord table).get? key =
      if (ws.map Text.lower).count key = 0 then table.get? key
      else some ((table.get? key).getD 0 + (ws.map Text.lower).count key) := by
  induction ws generalizing table with
  | nil => rfl
  | cons w rest ih =>
    rw [List.foldl_cons, ih, countWord, Dictionary.get?_insert, List.map_cons, List.count_cons]
    by_cases h : key = Text.lower w
    · subst h
      by_cases hrest : (rest.map Text.lower).count (Text.lower w) = 0 <;> simp [hrest]
      omega
    · simp [h, Ne.symm h]

/-- Under a word in lower case stands how often it occurs, and under no other. -/
theorem get?_tally (ws : List String) (key : String) :
    (tally ws).get? key =
      if (ws.map Text.lower).count key = 0 then none
      else some ((ws.map Text.lower).count key) := by
  rw [tally, get?_foldl_countWord]
  simp

end FeatureGraph.Component.WordCount
