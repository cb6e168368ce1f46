-- What holds of the record at every moment of a run, also of one that stops
-- half way. A node is known to have ended only after all it put out was sent
-- and came in at each listener, once for each time the listener needs it. It
-- ends only when it knows that all its providers have ended and has heard
-- from each. So what ends holds all of what came before it.
import FeatureGraph.Proofs.Run.LifeCycle

namespace FeatureGraph

variable {net : Wiring} {j : List JournalEntry} {L L' : Ledger} {u v m id : Nat} {act : Act}

/-! ## What came in -/

/-- What a node took in from a provider, in order. -/
def received (net : Wiring) (j : List JournalEntry) (m u : Nat) : List Payload :=
  receivedAt j m ((net.needs m).idxOf u)

/-- What should come in from a provider: every chunk that it sent, once for each time it is
needed. -/
abbrev due (net : Wiring) (j : List JournalEntry) (m u : Nat) : List Payload :=
  (sentBy j u).flatMap fun chunk => List.replicate ((net.needs m).count u) chunk

/-- Every chunk that `u` sent came in at each of its listeners, once for each time the listener
needs `u`, in order. -/
def Balanced (net : Wiring) (j : List JournalEntry) (u : Nat) : Prop :=
  ∀ m ∈ net.listeners u, received net j m u = due net j m u

def AllSent (j : List JournalEntry) (u : Nat) : Prop := outputOf j u = (sentBy j u).map .ok

/-- The node has put out its last chunk, and all that it put out has come in everywhere. -/
structure Sealed (net : Wiring) (j : List JournalEntry) (u : Nat) : Prop where
  ended : ∃ out, Act.lastChunk (.ok out) ∈ actsAt j u
  allSent : AllSent j u
  balanced : Balanced net j u

/-- A node is told that all input has come only after each provider was sealed and had sent
it something. -/
def Timely (net : Wiring) (j : List JournalEntry) : Prop :=
  ∀ before after m got, j = before ++ ⟨m, .dequeue true got⟩ :: after →
    ∀ u ∈ net.needs m, Sealed net before u ∧ received net before m u ≠ []

@[simp] theorem received_snoc : received net (j ++ [⟨id, act⟩]) m u = received net j m u ++
    if id = m then (act.received? ((net.needs m).idxOf u)).toList else [] :=
  receivedAt_snoc ..

@[simp] theorem received_record : received net (L.record id act).journal m u =
    received net L.journal m u ++
      if id = m then (act.received? ((net.needs m).idxOf u)).toList else [] :=
  receivedAt_snoc ..

theorem due_record : due net (L.record id act).journal m u = due net L.journal m u ++
    (if id = u then act.sent?.toList else []).flatMap fun chunk =>
      List.replicate ((net.needs m).count u) chunk := by
  rw [due, Ledger.sentBy_record, List.flatMap_append]

theorem sentBy_congr {k : List JournalEntry} (h : actsAt k u = actsAt j u) :
    sentBy k u = sentBy j u := by rw [sentBy, h, sentBy]

theorem workAt_congr {k : List JournalEntry} (h : actsAt k u = actsAt j u) :
    workAt k u = workAt j u := by rw [workAt, h, workAt]

theorem AllSent.congr {k : List JournalEntry} (h : AllSent j u) (hacts : actsAt k u = actsAt j u) :
    AllSent k u := by
  simp only [AllSent, outputOf, sentBy, hacts]
  exact h

theorem Balanced.congr {k : List JournalEntry} (h : Balanced net j u)
    (hacts : actsAt k u = actsAt j u)
    (hreceived : ∀ m ∈ net.listeners u, received net k m u = received net j m u) :
    Balanced net k u := fun m hm => by
  rw [hreceived m hm, due, sentBy_congr hacts]
  exact h m hm

theorem Sealed.congr {k : List JournalEntry} (h : Sealed net j u) (hacts : actsAt k u = actsAt j u)
    (hreceived : ∀ m ∈ net.listeners u, received net k m u = received net j m u) :
    Sealed net k u :=
  ⟨hacts ▸ h.ended, h.allSent.congr hacts, h.balanced.congr hacts hreceived⟩

/-- What happens at another node leaves a sealed node sealed, unless it takes in more from the
sealed one. -/
theorem Sealed.snoc (h : Sealed net j u) (hne : id ≠ u)
    (hgain : id ∈ net.listeners u → act.received? ((net.needs id).idxOf u) = none) :
    Sealed net (j ++ [⟨id, act⟩]) u := by
  refine h.congr (by simp [hne]) fun m hm => ?_
  by_cases hid : id = m
  · subst hid
    simp [hgain hm]
  · simp [hid]

theorem Timely.snoc (h : Timely net j)
    (hnow : ∀ got, act = .dequeue true got →
      ∀ u ∈ net.needs id, Sealed net j u ∧ received net j id u ≠ []) :
    Timely net (j ++ [⟨id, act⟩]) := by
  intro before after m got heq
  rcases snoc_eq_append heq with ⟨rfl, hlast, -⟩ | ⟨front, -, hfront⟩
  · cases hlast
    exact hnow got rfl
  · exact h before front m got hfront

/-! ## At every moment -/

theorem Ledger.nodup_enqueued_enter {L : Ledger} {id : Nat} {act : Act} {source : Option Nat}
    (h : ∀ m, (L.enqueued m).Nodup) (m : Nat) : ((L.enter id act source).enqueued m).Nodup := by
  cases source with
  | none => exact h m
  | some v =>
    simp only [Ledger.enter]
    split
    · exact (h m).insert
    · exact h m

/-- No listener knows yet that the node has ended. -/
def Open (L : Ledger) (id : Nat) : Prop := ∀ m, id ∉ L.finalized m

/-- All providers of a node have ended and have been heard from. -/
def Full (net : Wiring) (L : Ledger) (m : Nat) : Prop :=
  ∀ u ∈ net.needs m, u ∈ L.finalized m ∧ u ∈ L.enqueued m

/-- What holds of the record at every moment of a run. -/
structure Sound (net : Wiring) (L : Ledger) : Prop where
  known : ∀ {m u}, u ∈ L.finalized m → u ∈ net.needs m
  knownOnce : ∀ m, (L.finalized m).Nodup
  heard : ∀ {m u}, u ∈ L.enqueued m → u ∈ net.needs m ∧ received net L.journal m u ≠ []
  told : ∀ {m u}, u ∈ net.needs m → received net L.journal m u ≠ [] → u ∈ L.enqueued m
  /-- What has come in is the beginning of what should come in. -/
  flows : ∀ {m u}, u ∈ net.needs m → received net L.journal m u <+: due net L.journal m u
  heardOnce : ∀ m, (L.enqueued m).Nodup
  ended : ∀ {m u}, u ∈ L.finalized m → L.ended u = true
  sealed : ∀ {m u}, u ∈ L.finalized m → Sealed net L.journal u
  full : ∀ {m}, L.ended m = true → Full net L m
  marked : ∀ {m result}, Act.lastChunk result ∈ actsAt L.journal m → L.ended m = true
  life : ∀ m, CutShort (net.life m) (workAt L.journal m)
  timely : Timely net L.journal
  idle : ∀ {m}, net.pruned m = true → workAt L.journal m = []

/-- What holds of the record of a run that has stopped. -/
structure Broken (net : Wiring) (L : Ledger) : Prop extends Sound net L where
  failing : L.Failing

namespace Sound

/-- The two counters agree with the two sets: a node is finalized only when it is full. -/
theorem full_of_isFinalized (h : Sound net L) (hfinalized : L.isFinalized net m = true) :
    Full net L m := by
  simp only [Ledger.isFinalized, Bool.and_eq_true, decide_eq_true_eq] at hfinalized
  intro u hu
  exact ⟨mem_of_eraseDups_length_le (h.knownOnce m) (fun _ => h.known) hfinalized.1 hu,
    mem_of_eraseDups_length_le (h.heardOnce m) (fun _ hv => (h.heard hv).1) hfinalized.2 hu⟩

section Enter

variable {source : Option Nat}
  (hsource : ∀ {u}, u ∈ net.needs id →
    (act.received? ((net.needs id).idxOf u) ≠ none ↔ source = some u))

include hsource

/-- Nothing comes in at a node but what the one provider sent. -/
theorem gain_eq_nil_iff (hu : u ∈ net.needs m) :
    (if id = m then (act.received? ((net.needs m).idxOf u)).toList else []) = [] ↔
      ¬ (id = m ∧ source = some u) := by
  by_cases hm : id = m
  · subst hm
    rw [if_pos rfl, Option.toList_eq_nil_iff, ← hsource hu]
    simp
  · simp [hm]

theorem heard_enter (h : Sound net L) (hneeds : ∀ {u}, source = some u → u ∈ net.needs id)
    (hu : u ∈ (L.enter id act source).enqueued m) :
    u ∈ net.needs m ∧ received net (L.enter id act source).journal m u ≠ [] := by
  rw [Ledger.enter_journal, received_record, ne_eq, List.append_eq_nil_iff, not_and_or]
  rcases Ledger.mem_enqueued_enter.mp hu with ⟨rfl, hfrom⟩ | hu
  · have hmem := hneeds hfrom
    exact ⟨hmem, Or.inr fun hnil => (gain_eq_nil_iff hsource hmem).mp hnil ⟨rfl, hfrom⟩⟩
  · exact ⟨(h.heard hu).1, Or.inl (h.heard hu).2⟩

theorem told_enter (h : Sound net L) (hu : u ∈ net.needs m)
    (hreceived : received net (L.enter id act source).journal m u ≠ []) :
    u ∈ (L.enter id act source).enqueued m := by
  rw [Ledger.enter_journal, received_record, ne_eq, List.append_eq_nil_iff, not_and_or] at hreceived
  rw [Ledger.mem_enqueued_enter]
  rcases hreceived with hold | hnew
  · exact Or.inr (h.told hu hold)
  · exact Or.inl (not_not.mp fun hnot => hnew ((gain_eq_nil_iff hsource hu).mpr hnot))

theorem flows_enter (h : Sound net L)
    (hflows : ∀ {u}, source = some u →
      received net (L.record id act).journal id u <+: due net (L.record id act).journal id u)
    (hu : u ∈ net.needs m) : received net (L.enter id act source).journal m u <+:
      due net (L.enter id act source).journal m u := by
  rw [Ledger.enter_journal]
  by_cases hsome : id = m ∧ source = some u
  · obtain ⟨rfl, hfrom⟩ := hsome
    exact hflows hfrom
  · rw [received_record, (gain_eq_nil_iff hsource hu).mpr hsome, List.append_nil, due_record]
    exact (h.flows hu).trans (List.prefix_append ..)

end Enter

/-- Whatever a node does is on record: data that it takes in from a provider that has not ended,
and that has sent it, or else nothing that its providers sent. -/
theorem enter (h : Sound net L) (hopen : Open L id) {source : Option Nat}
    (hgain : ∀ {u m}, u ∈ L.finalized m → id ∈ net.listeners u →
      act.received? ((net.needs id).idxOf u) = none)
    (hsource : ∀ {u}, u ∈ net.needs id →
      (act.received? ((net.needs id).idxOf u) ≠ none ↔ source = some u))
    (hneeds : ∀ {u}, source = some u → u ∈ net.needs id ∧
      received net (L.record id act).journal id u <+: due net (L.record id act).journal id u)
    (hlast : ∀ result, act = .lastChunk result → L.ended id = true)
    (hfull : ∀ got, act = .dequeue true got → Full net L id)
    (hlife : CutShort (net.life id) (workAt (L.record id act).journal id))
    (hlive : act.isWork = true → net.pruned id = false) : Sound net (L.enter id act source) := by
  have hsealed : ∀ {m u}, u ∈ L.finalized m → Sealed net (L.record id act).journal u :=
    fun {m u} hu => (h.sealed hu).snoc (fun heq => hopen m (heq ▸ hu)) (hgain hu)
  refine ⟨h.known, h.knownOnce, heard_enter hsource h fun hfrom => (hneeds hfrom).1,
    told_enter hsource h, flows_enter hsource h fun hfrom => (hneeds hfrom).2,
    Ledger.nodup_enqueued_enter h.heardOnce, h.ended, hsealed, ?_, ?_, ?_, ?_, ?_⟩
  · intro m hm u hu
    obtain ⟨hfinalized, henqueued⟩ := h.full hm u hu
    exact ⟨hfinalized, Ledger.mem_enqueued_enter.mpr (Or.inr henqueued)⟩
  · intro m result hm
    rw [Ledger.enter_journal, Ledger.actsAt_record, List.mem_append] at hm
    rcases hm with hm | hm
    · exact h.marked hm
    · split at hm
      · rename_i heq
        subst heq
        exact hlast result (List.mem_singleton.mp hm).symm
      · simp at hm
  · intro m
    by_cases hm : id = m
    · subst hm
      exact hlife
    · have := h.life m
      simpa [hm] using this
  · refine h.timely.snoc fun got hgot u hu => ?_
    obtain ⟨hfinalized, henqueued⟩ := hfull got hgot u hu
    exact ⟨h.sealed hfinalized, (h.heard henqueued).2⟩
  · intro m hm
    rw [Ledger.enter_journal, Ledger.workAt_record, h.idle hm, if_neg]
    · rfl
    · rintro ⟨rfl, hwork⟩
      rw [hlive hwork] at hm
      cases hm

/-- What is not taken in from a provider. -/
theorem record (h : Sound net L) (hopen : Open L id)
    (hgain : ∀ {u m}, u ∈ L.finalized m → id ∈ net.listeners u →
      act.received? ((net.needs id).idxOf u) = none)
    (hnone : ∀ {u}, u ∈ net.needs id → act.received? ((net.needs id).idxOf u) = none)
    (hlast : ∀ result, act = .lastChunk result → L.ended id = true)
    (hfull : ∀ got, act = .dequeue true got → Full net L id)
    (hlife : CutShort (net.life id) (workAt (L.record id act).journal id))
    (hlive : act.isWork = true → net.pruned id = false) : Sound net (L.record id act) := by
  have hentered : Sound net (L.enter id act none) :=
    h.enter hopen hgain (fun hu => by simp [hnone hu]) (fun hu => by cases hu) hlast hfull hlife
      hlive
  exact hentered

theorem close (h : Sound net L) (hid : id ∈ net.needs m) (hended : L.ended id = true)
    (hsealed : Sealed net L.journal id) : Sound net (L.close id m) := by
  have hcases : ∀ {k v}, v ∈ (L.close id m).finalized k → (v = id ∧ k = m) ∨ v ∈ L.finalized k := by
    intro k v hv
    simp only [Ledger.close] at hv
    split at hv
    · rename_i hk
      exact (List.mem_insert_iff.mp hv).imp_left fun h => ⟨h, hk⟩
    · exact Or.inr hv
  refine ⟨?_, ?_, h.heard, h.told, h.flows, h.heardOnce, ?_, ?_, ?_, h.marked, h.life, h.timely,
    h.idle⟩
  · intro k v hv
    rcases hcases hv with ⟨rfl, rfl⟩ | hv
    · exact hid
    · exact h.known hv
  · intro k
    simp only [Ledger.close]
    split
    · exact (h.knownOnce k).insert
    · exact h.knownOnce k
  · intro k v hv
    rcases hcases hv with ⟨rfl, rfl⟩ | hv
    · exact hended
    · exact h.ended hv
  · intro k v hv
    rcases hcases hv with ⟨rfl, rfl⟩ | hv
    · exact hsealed
    · exact h.sealed hv
  · intro k hk v hv
    obtain ⟨hfinalized, henqueued⟩ := h.full hk v hv
    refine ⟨?_, henqueued⟩
    simp only [Ledger.close]
    split
    · exact List.mem_insert_of_mem hfinalized
    · exact hfinalized

theorem finish (h : Sound net L) (hfull : Full net L id) : Sound net (L.finish id) := by
  refine ⟨h.known, h.knownOnce, h.heard, h.told, h.flows, h.heardOnce, ?_, h.sealed, ?_, ?_,
    h.life, h.timely, h.idle⟩
  · intro m u hu
    simp only [Ledger.finish]
    split
    · rfl
    · exact h.ended hu
  · intro m hm
    simp only [Ledger.finish] at hm
    split at hm
    · rename_i heq
      exact heq ▸ hfull
    · exact h.full hm
  · intro m result hm
    simp only [Ledger.finish]
    split
    · rfl
    · exact h.marked hm

/-! ## The end of a life -/

/-- Once all input is said to have come, the rest of a life is its ending. -/
theorem closing (h : Sound net L) {before after : List Act}
    (heq : workAt L.journal m = before ++ act :: after) (hact : act.isClosing = true) :
    ∃ ended middle rest, Ending (middle ++ act :: (after ++ rest)) ∧
      net.life m ended (workAt L.journal m ++ rest) := by
  obtain ⟨ended, rest, hlife⟩ := h.life m
  obtain ⟨front, back, hsplit, hfront, hending⟩ := Wiring.life_ending hlife
  have hfull : front ++ back = before ++ act :: (after ++ rest) := by
    rw [← hsplit, heq]
    simp
  obtain ⟨middle, rfl⟩ := exists_of_append_eq Act.isClosing hfull hfront hact
  exact ⟨ended, middle, rest, hending, hlife⟩

/-- The last call ends the life of a node. -/
theorem last (h : Sound net L) {before after : List Act} {result : Except ComponentError Output}
    (heq : workAt L.journal m = before ++ .lastChunk result :: after) :
    after = [] ∧ ∃ ended, net.life m ended (workAt L.journal m) := by
  obtain ⟨ended, middle, rest, hending, hlife⟩ := h.closing heq rfl
  obtain ⟨hafter, rfl⟩ := List.append_eq_nil_iff.mp (hending.after_lastChunk rfl)
  exact ⟨hafter, ended, List.append_nil (workAt L.journal m) ▸ hlife⟩

theorem last_once (h : Sound net L) {before after : List Act}
    {result : Except ComponentError Output}
    (heq : workAt L.journal m = before ++ .lastChunk result :: after)
    (result' : Except ComponentError Output) : Act.lastChunk result' ∉ before := by
  intro hmem
  obtain ⟨first, second, rfl⟩ := List.append_of_mem hmem
  rw [List.append_assoc, List.cons_append] at heq
  have := (h.last heq).1
  simp at this

/-- Nothing is taken in or taken out once all input is said to have come. -/
theorem final (h : Sound net L) {before after : List Act} {got : Option Payload}
    (heq : workAt L.journal m = before ++ .dequeue true got :: after) :
    ∀ act ∈ after, act.isIntake = false := by
  obtain ⟨-, middle, rest, hending, -⟩ := h.closing heq rfl
  exact fun act hact => hending.after_dequeue rfl act (List.mem_append_left _ hact)

end Sound

end FeatureGraph
