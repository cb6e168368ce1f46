-- The lines of a file that grows. What stands before the last line feed
-- keeps its lines whatever is added; what stands behind it becomes the
-- beginning of the next line.
import FeatureGraph.Files.Tree
import Mathlib.Data.List.TakeWhile

namespace FeatureGraph.FileTree

variable {line last bs more : Bytes}

/-- What stands behind the last line feed. -/
def lastLine (bs : Bytes) : Bytes := (bs.reverse.takeWhile (· ≠ 0x0A)).reverse

theorem linesFrom_append (line front more : Bytes) :
    linesFrom line (front ++ 0x0A :: more) =
      linesFrom line (front ++ [0x0A]) ++ linesFrom [] more := by
  induction front generalizing line with
  | nil => simp [linesFrom]
  | cons b front ih =>
    rw [List.cons_append, List.cons_append, linesFrom, linesFrom]
    split
    · rw [ih, List.cons_append]
    · exact ih (b :: line)

theorem linesFrom_plain_append (h : 0x0A ∉ last) (line more : Bytes) :
    linesFrom line (last ++ more) = linesFrom (last.reverse ++ line) more := by
  induction last generalizing line with
  | nil => rfl
  | cons b last ih =>
    simp only [List.mem_cons, not_or] at h
    obtain ⟨hb, hlast⟩ := h
    rw [List.cons_append, linesFrom, if_neg (Ne.symm hb), ih hlast]
    simp

/-- A line that is not ended. -/
theorem splitLines_plain (h : 0x0A ∉ last) :
    splitLines last = if last = [] then [] else [last] := by
  have hlines := linesFrom_plain_append h [] []
  rw [List.append_nil, List.append_nil] at hlines
  rw [splitLines, hlines, linesFrom]
  simp

/-- A line that is ended by a line feed alone. -/
theorem splitLines_line (h : 0x0A ∉ line) (hreturn : line.getLast? ≠ some 0x0D) (more : Bytes) :
    splitLines (line ++ 0x0A :: more) = line :: splitLines more := by
  rw [splitLines, linesFrom_plain_append h, linesFrom, if_pos rfl, List.append_nil,
    List.head?_reverse, if_neg hreturn, List.reverse_reverse]
  rfl

/-- The lines before the last line feed stay as they are. -/
theorem exists_lastLine (bs : Bytes) : 0x0A ∉ lastLine bs ∧ ∃ front, bs = front ++ lastLine bs ∧
    ∀ more, splitLines (front ++ more) = splitLines front ++ splitLines more := by
  refine ⟨?_, (bs.reverse.dropWhile (· ≠ 0x0A)).reverse, ?_, fun more => ?_⟩
  · rw [lastLine, List.mem_reverse]
    intro hmem
    exact absurd (List.mem_takeWhile_imp hmem) (by decide)
  · rw [lastLine, ← List.reverse_append, List.takeWhile_append_dropWhile, List.reverse_reverse]
  · cases hdrop : bs.reverse.dropWhile (· ≠ 0x0A) with
    | nil => rfl
    | cons b rest =>
      have hb : b = 0x0A := by
        have hhead := List.head?_dropWhile_not (fun b : UInt8 => decide (b ≠ 0x0A)) bs.reverse
        rw [hdrop] at hhead
        simpa using hhead
      subst hb
      rw [List.reverse_cons, List.append_assoc]
      exact linesFrom_append [] rest.reverse more

end FeatureGraph.FileTree
