-- Which nodes have ended when a run has come to its end. A node ends exactly
-- if every node that it needs has ended and has sent something, so a provider
-- that sends nothing keeps all that come after it from ending.
import FeatureGraph.Proofs.Graph.Edges

namespace FeatureGraph

variable {W : Type} {net : Wiring} {L : Ledger} {phase : Nat → Phase} {u m : Nat}

/-! ## Who has been heard from -/

/-- Who was heard from has sent something. -/
theorem Sound.sent_of_heard (h : Sound net L) (hu : u ∈ L.enqueued m) :
    sentBy L.journal u ≠ [] := by
  obtain ⟨hneeds, hreceived⟩ := h.heard hu
  intro hnil
  have hflows := h.flows hneeds
  rw [due, hnil, List.flatMap_nil] at hflows
  exact hreceived (List.prefix_nil.mp hflows)

/-- And who has sent something to a node was heard from there, once it has come in. -/
theorem Sound.heard_of_sent (h : Sound net L) (hw : net.Wired) (hm : m ∈ net.listeners u)
    (hbalanced : Balanced net L.journal u) (hsent : sentBy L.journal u ≠ []) :
    u ∈ L.enqueued m := by
  have hu := hw.mem_needs hm
  refine h.told hu ?_
  obtain ⟨chunk, hchunk⟩ := List.exists_mem_of_ne_nil _ hsent
  have hcount : (net.needs m).count u ≠ 0 := fun hzero => List.count_eq_zero.mp hzero hu
  have hdue : chunk ∈ due net L.journal m u :=
    List.mem_flatMap.mpr ⟨chunk, hchunk, List.mem_replicate.mpr ⟨hcount, rfl⟩⟩
  rw [hbalanced m hm]
  exact List.ne_nil_of_mem hdue

/-- A full node is finalized. -/
theorem Full.isFinalized (h : Full net L m) : L.isFinalized net m = true := by
  simp only [Ledger.isFinalized, Bool.and_eq_true, decide_eq_true_eq]
  refine ⟨eraseDups_length_le fun u hu => (h u hu).1, eraseDups_length_le fun u hu => (h u hu).2⟩

/-! ## At rest -/

namespace AtRest

variable (h : AtRest net phase L)

include h

theorem balanced (u : Nat) : Balanced net L.journal u := by
  by_cases hroot : net.Root u
  · exact (h.roots u hroot).balanced
  · exact (h.quiet u (Nat.zero_le u) hroot).balanced

/-- The listeners of a node that has ended know it. -/
theorem known (hended : L.ended u = true) (hm : m ∈ net.listeners u) : u ∈ L.finalized m := by
  by_cases hroot : net.Root u
  · have hstands := h.roots u hroot
    exact hstands.known (hstands.ended ▸ hended) m hm
  · exact (h.quiet u (Nat.zero_le u) hroot).known hended m hm

/-- A node has ended exactly if it was called for its end. -/
theorem ended_iff_last : L.ended m = true ↔ ∃ last, Act.lastChunk last ∈ actsAt L.journal m := by
  refine ⟨fun hended => ?_, fun ⟨last, hlast⟩ => h.sound.marked hlast⟩
  have hclosing : ∃ front closing, workAt L.journal m = front ++ closing ∧ Closing closing := by
    by_cases hroot : net.Root m
    · have hstands := h.roots m hroot
      obtain ⟨data, closing, hclosing, hcalls⟩ := hstands.calls.of_ended (hstands.ended ▸ hended)
      exact ⟨[.enqueue 0 data], closing, hcalls, hclosing⟩
    · have hlife := (h.quiet m (Nat.zero_le m) hroot).life
      rw [hended] at hlife
      generalize workAt L.journal m = acts at hlife ⊢
      cases hlife with
      | closed _ hclosing => exact ⟨_, _, rfl, hclosing⟩
  obtain ⟨front, closing, hwork, hclosing⟩ := hclosing
  obtain ⟨last, hattempt⟩ := hclosing
  have hlast : Act.lastChunk last ∈ workAt L.journal m := by
    rw [hwork]
    simp
  exact ⟨last, (List.mem_filter.mp hlast).1⟩

/-- A node that listens to all it needs has ended exactly if each of these nodes has ended, and
has sent something. -/
theorem ended_iff (hw : net.Wired) (hroot : ¬ net.Root m) (hlinked : net.Linked m) :
    L.ended m = true ↔ ∀ u ∈ net.needs m, L.ended u = true ∧ sentBy L.journal u ≠ [] := by
  constructor
  · intro hended u hu
    obtain ⟨hfinalized, henqueued⟩ := h.sound.full hended u hu
    exact ⟨h.sound.ended hfinalized, h.sound.sent_of_heard henqueued⟩
  · intro hall
    have hfull : Full net L m := fun u hu => by
      obtain ⟨hended, hsent⟩ := hall u hu
      have hm : m ∈ net.listeners u :=
        List.count_pos_iff.mp (hlinked u ▸ List.count_pos_iff.mpr hu)
      exact ⟨h.known hended hm, h.sound.heard_of_sent hw hm (h.balanced u) hsent⟩
    exact (h.quiet m (Nat.zero_le m) hroot).settled (fun hfalse => hfalse) hfull.isFinalized

end AtRest

/-! ## In a run that comes to its end -/

/-- A node was called for its end. -/
def Ended (j : List JournalEntry) (m : Nat) : Prop := ∃ last, Act.lastChunk last ∈ actsAt j m

theorem ended_append {j q : List JournalEntry} : Ended (j ++ q) m ↔ Ended j m ∨ Ended q m := by
  simp only [Ended, actsAt_append, List.mem_append, exists_or]

namespace Graph.Course

variable {g : Graph W} {world : W} {all : Bool} {r₁ r₂ r₃ : Run W} {n : Node W}

/-- In a run that comes to its end a node that takes part in it ends exactly if each node that it
needs ends, and sends something. -/
theorem ended_iff (h : g.Course world (.ok ()) all r₁ r₂ r₃) (hready : g.Ready)
    (hn : g.nodes[m]? = some n) (hlive : n.pruned = false) (hlinked : (wiringOf g.nodes).Linked m) :
    Ended r₂.journal.reverse m ↔
      ∀ u ∈ n.needs, Ended r₂.journal.reverse u ∧ sentBy r₂.journal.reverse u ≠ [] := by
  obtain ⟨phase, hrest, hover, -⟩ := h.atRest rfl
  have hneeds : (wiringOf g.nodes).needs m = n.needs := by simp [wiringOf, hn]
  have hended : ∀ u, r₂.ledger.ended u = true ↔ Ended r₂.journal.reverse u := fun u =>
    hrest.ended_iff_last
  simp only [← hended]
  by_cases hroot : (wiringOf g.nodes).Root m
  · -- a root that takes part is driven to its end
    have hnil : n.needs = [] := hneeds.symm.trans hroot
    have hdone : r₂.ledger.ended m = true := by
      rw [(hrest.roots m hroot).ended, hover m n hn (by simp [Node.isRoot, hnil]) hlive]
      rfl
    simp [hdone, hnil]
  · rw [← hneeds]
    exact hrest.ended_iff hready.wired hroot hlinked

/-- What has ended and is heard of by a listener is sealed. -/
theorem sealed_of_ended (h : g.Course world (.ok ()) all r₁ r₂ r₃)
    (hu : u ∈ (wiringOf g.nodes).needs m) (hlinked : (wiringOf g.nodes).Linked m)
    (hended : Ended r₂.journal.reverse u) : Sealed (wiringOf g.nodes) r₂.journal.reverse u := by
  obtain ⟨phase, hrest, -, -⟩ := h.atRest rfl
  have hm : m ∈ (wiringOf g.nodes).listeners u :=
    List.count_pos_iff.mp (hlinked u ▸ List.count_pos_iff.mpr hu)
  exact h.sound.sealed (hrest.known (hrest.ended_iff_last.mpr hended) hm)

/-- A run that answers has acquired every node that takes part, and its release went well. -/
theorem answered (h : g.Course world (.ok ()) all r₁ r₂ r₃) (hready : g.Ready)
    (hn : g.nodes[m]? = some n) (hlive : n.pruned = false) :
    ∃ n₂, r₂.nodes[m]? = some n₂ ∧ n₂.acquired = true ∧
      r₃.acts m = r₂.acts m ++ [.release (.ok ())] := by
  obtain ⟨ends, hends, hok, -⟩ := h.answers
  obtain ⟨hall, hreleases⟩ := hok rfl
  have hmem : m ∈ Run.idsOf g.nodes fun n => !n.pruned :=
    Run.mem_idsOf.mpr ⟨n, hn, by simp [hlive]⟩
  obtain ⟨n₁, hn₁, hopened, hacquire⟩ := Run.Acquires.opened h.opens (Run.nodup_idsOf ..) hn rfl
  obtain ⟨n₂, hn₂, -, hsame⟩ := h.steps.alike hn₁
  have hacquired : n₂.acquired = true := by
    rcases hopened.acquired (hready.fresh n (List.mem_of_getElem? hn)).acquired with
      ⟨htrue, -⟩ | ⟨-, hnone | ⟨e, hfailed⟩⟩
    · exact hsame.trans htrue
    · rw [hacquire hall hmem] at hnone
      cases hnone
    · rw [hacquire hall hmem] at hfailed
      cases hfailed
  obtain ⟨w, -, hacts⟩ := h.released hn₂ hacquired
  have hlast : ∃ e ∈ ends, e.act = .release (n₂.release w).1 := by
    have hsplit : actsAt r₃.journal.reverse m = r₂.acts m ++ actsAt ends m := by
      rw [hends, actsAt_append]
      rfl
    have htail : actsAt ends m = [.release (n₂.release w).1] :=
      List.append_cancel_left (hsplit.symm.trans hacts)
    exact ⟨_, mem_of_mem_actsAt (htail ▸ List.mem_singleton_self _), rfl⟩
  obtain ⟨e, he, heq⟩ := hlast
  refine ⟨n₂, hn₂, hacquired, ?_⟩
  rw [hacts, ← heq, hreleases e he]

end Graph.Course

end FeatureGraph
