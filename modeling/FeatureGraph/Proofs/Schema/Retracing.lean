-- What working a feature out again takes. The partial graph of a feature has
-- the features that are reached from it, where every way up stops at the first
-- feature that is stored, and it has no others. There is no partial graph if a
-- way up ends at a root that is not stored.
import FeatureGraph.Proofs.Schema.Drafting

namespace FeatureGraph

/-! ## Calls without a node -/

section Calls

variable {W : Type} {m : Nat}

theorem Run.Steps.absent {r r' : Run W} (h : Run.Steps r r') (hm : r.nodes[m]? = none) :
    r'.nodes[m]? = none ∧ callsAt r'.journal.reverse m = callsAt r.journal.reverse m := by
  refine h.keep (I := fun r' => r'.nodes[m]? = none ∧
    callsAt r'.journal.reverse m = callsAt r.journal.reverse m) ⟨hm, rfl⟩ ?_
  rintro r₁ r₂ hstep ⟨hnone, hcalls⟩
  have hskip : ∀ {id act}, id ≠ m ∨ act.isCall = false →
      callsAt (⟨id, act⟩ :: r₁.journal).reverse m = callsAt r.journal.reverse m := by
    intro id act hout
    rw [callsAt, List.reverse_cons, actsAt_snoc, List.filter_append, ← callsAt, hcalls]
    rcases hout with hne | hact
    · rw [if_neg hne, List.filter_nil, List.append_nil]
    · split <;> simp [hact]
  cases hstep with
  | @call hook _ id n hn =>
    have hne : id ≠ m := fun heq => by
      rw [heq, hnone] at hn
      cases hn
    exact ⟨(List.getElem?_set_ne hne).trans hnone, hskip (Or.inl hne)⟩
  | emit => exact ⟨hnone, hskip (Or.inr rfl)⟩
  | finalize =>
    refine ⟨?_, hcalls⟩
    rw [List.getElem?_modify, hnone]
    rfl

/-- What a run calls is a node of the graph. -/
theorem Graph.Ready.node_of_call {g : Graph W} (h : g.Ready) {inputs : Inputs} {world : W}
    (hcalls : callsAt (g.journal inputs world) m ≠ []) : m < g.nodes.length := by
  by_contra hout
  have hm : g.nodes[m]? = none := List.getElem?_eq_none (Nat.le_of_not_lt hout)
  refine hcalls ?_
  by_cases hinputs : g.roots.all (inputs.contains ·.1) = true
  · obtain ⟨all, r₁, r₂, r₃, hcourse, hrun⟩ := Graph.course h world hinputs
    obtain ⟨hnone, hacts⟩ := hcourse.opens.none hm
    obtain ⟨hnone₂, hcalls₂⟩ := hcourse.steps.absent hnone
    have hids : m ∉ Run.idsOf r₂.nodes (·.acquired) := fun hmem =>
      Nat.not_le_of_lt (Run.lt_of_mem_idsOf hmem) (List.getElem?_eq_none_iff.mp hnone₂)
    have hacts₃ : actsAt r₃.journal.reverse m = actsAt r₂.journal.reverse m :=
      (hcourse.releases.other hids).2
    have hacts₁ : actsAt r₁.journal.reverse m = [] := hacts
    rw [Graph.journal, hrun, callsAt, hacts₃, ← callsAt, hcalls₂, callsAt, hacts₁, List.filter_nil]
  · rw [Graph.journal, Graph.run_missing world hinputs]
    rfl

end Calls

namespace Schema

open Procedure

/-! ## The features that are reached -/

/-- The features that working out the target again comes to: the target, and what is needed by
one that is the target or is not stored. -/
inductive Reached (features : Dictionary Feature) (scheme : KeyScheme) (w : Workspace)
    (id target : String) : String → Prop
  | target : Reached features scheme w id target target
  | need {f : Feature} {key : String} : f ∈ features.values →
      Reached features scheme w id target f.key →
      f.key = target ∨ isStoredFor scheme w id f.key = .ok false → key ∈ f.needs →
      Reached features scheme w id target key

/-- A feature other than the target is stored. -/
def ReadBack (scheme : KeyScheme) (w : Workspace) (id target key : String) : Prop :=
  key ≠ target ∧ isStoredFor scheme w id key = .ok true

/-- A way up from the target ends at this feature, a root, and it is not stored. -/
structure Missing (features : Dictionary Feature) (scheme : KeyScheme) (w : Workspace)
    (id target : String) (f : Feature) : Prop where
  declared : f ∈ features.values
  reached : Reached features scheme w id target f.key
  root : f.needs = []
  absent : f.key = target ∨ isStoredFor scheme w id f.key = .ok false

/-- The store can tell of every other feature that is reached whether it is stored. -/
def Telling (features : Dictionary Feature) (scheme : KeyScheme) (w : Workspace)
    (id target : String) : Prop :=
  ∀ f ∈ features.values, Reached features scheme w id target f.key → f.key ≠ target →
    ∃ stored, isStoredFor scheme w id f.key = .ok stored

section

variable {features : Dictionary Feature} {scheme : KeyScheme} {w : Workspace}
  {id target key : String} {f g : Feature} {rank : String → Nat} {depth m : Nat} {flag : Bool}
  {d d' : Draft} {site : Site Workspace} {sites more : List (Site Workspace)}

theorem not_readBack (h : key = target ∨ isStoredFor scheme w id key = .ok false) :
    ¬ ReadBack scheme w id target key := by
  rintro ⟨hne, hstored⟩
  rcases h with h | h
  · exact hne h
  · rw [h] at hstored
    cases hstored

/-! ## Drafts of partial graphs -/

/-- What a node of a partial graph is there for: it reads a feature that is reached back, or works
it out. -/
def Recalls (features : Dictionary Feature) (scheme : KeyScheme) (w : Workspace)
    (id target : String) (sites : List (Site Workspace)) (m : Nat) : Prop :=
  ∃ f ∈ features.values, Reached features scheme w id target f.key ∧
    (ReadBack scheme w id target f.key ∧
        sites[m]? = some ⟨f.key, Component.replay f.decoder, []⟩ ∨
      ¬ ReadBack scheme w id target f.key ∧ f.needs ≠ [] ∧ WorksOut features sites f m)

theorem Recalls.append (h : Recalls features scheme w id target sites m) :
    Recalls features scheme w id target (sites ++ more) m := by
  obtain ⟨f, hf, hreached, hrecalls⟩ := h
  refine ⟨f, hf, hreached, hrecalls.imp ?_ ?_⟩
  · rintro ⟨hback, hsite⟩
    exact ⟨hback, getElem?_append hsite⟩
  · rintro ⟨hnot, hneeds, hworks⟩
    exact ⟨hnot, hneeds, hworks.append⟩

/-- What holds of the draft of a partial graph, as long as only features were added. -/
structure Retraced (features : Dictionary Feature) (scheme : KeyScheme) (w : Workspace)
    (id target : String) (d : Draft) : Prop extends d.Whole where
  placed : ∀ key m, (key, m) ∈ d.placed ↔ Stands d.sites key m
  recalls : ∀ m < d.sites.length, Recalls features scheme w id target d.sites m
  distinct : d.sources.Nodup
  sources : ∀ key, key ∈ d.sources ↔ key ∈ keysOf d.sites ∧ ReadBack scheme w id target key

theorem retraced_empty (name : String) :
    Retraced features scheme w id target (Draft.empty name) := by
  refine ⟨Draft.whole_empty name, fun key m => ?_, fun m hm => absurd hm (Nat.not_lt_zero m),
    .nil, fun key => ?_⟩
  · simp [stands_iff, Draft.sites, Draft.empty, Graph.empty, sitesOf, keysOf]
  · simp [Draft.sites, Draft.empty, Graph.empty, sitesOf, keysOf]

/-- A new node reads a feature back, which is then a source, or it does not. -/
theorem Retraced.sources_concat (h : Retraced features scheme w id target d)
    (hsources : ReadBack scheme w id target site.key ∧ d'.sources = d.sources ++ [site.key] ∨
      ¬ ReadBack scheme w id target site.key ∧ d'.sources = d.sources) :
    key ∈ d'.sources ↔ key ∈ keysOf (d.sites ++ [site]) ∧ ReadBack scheme w id target key := by
  rw [keysOf_append, List.mem_append, show keysOf [site] = [site.key] from rfl, List.mem_singleton,
    or_and_right, ← h.sources]
  rcases hsources with ⟨hback, heq⟩ | ⟨hnot, heq⟩
  · rw [heq, List.mem_append, List.mem_singleton]
    exact or_congr_right ⟨fun hkey => ⟨hkey, hkey ▸ hback⟩, And.left⟩
  · rw [heq, or_iff_left]
    rintro ⟨rfl, hback⟩
    exact hnot hback

/-- A node of a feature is added, and the feature is remembered. -/
theorem Retraced.grow (h : Retraced features scheme w id target d) (hwhole : d'.Whole)
    (hfresh : site.key ∉ keysOf d.sites) (hsites : d'.sites = d.sites ++ [site])
    (hplaced : d'.placed = (site.key, d.sites.length) :: d.placed)
    (hrecalls : Recalls features scheme w id target (d.sites ++ [site]) d.sites.length)
    (hsources : ReadBack scheme w id target site.key ∧ d'.sources = d.sources ++ [site.key] ∨
      ¬ ReadBack scheme w id target site.key ∧ d'.sources = d.sources) :
    Retraced features scheme w id target d' ∧ d.Meets (· = site.key) d' := by
  refine ⟨⟨hwhole, fun key m => ?_, fun m hm => ?_, ?_, fun key => ?_⟩,
    Draft.meets_place ?_ hplaced⟩
  · rw [hplaced, hsites, stands_concat, List.mem_cons, Prod.mk.injEq, h.placed]
  · rw [hsites] at hm ⊢
    rw [List.length_append, List.length_singleton] at hm
    rcases Nat.lt_succ_iff_lt_or_eq.mp hm with hm | rfl
    · exact (h.recalls m hm).append
    · exact hrecalls
  · rcases hsources with ⟨-, heq⟩ | ⟨-, heq⟩
    · have hnew : site.key ∉ d.sources := fun hmem => hfresh ((h.sources _).mp hmem).1
      rw [heq]
      exact List.nodup_append'.mpr ⟨h.distinct, List.nodup_singleton _, by simpa using hnew⟩
    · rw [heq]
      exact h.distinct
  · rw [hsites]
    exact h.sources_concat hsources
  · rw [hsites]
    exact List.prefix_append ..

/-- A feature that was not met has no node. -/
theorem Retraced.fresh (h : Retraced features scheme w id target d)
    (hnew : key ∉ d.placed.map Prod.fst) : key ∉ keysOf d.sites := by
  intro hkey
  obtain ⟨m, hm⟩ := exists_stands hkey
  exact hnew (List.mem_map_of_mem ((h.placed key m).mpr hm))

/-- The failure that names a root that is not there. -/
def Lacking (features : Dictionary Feature) (scheme : KeyScheme) (w : Workspace)
    (id target : String) (e : Failure) : Prop :=
  ∃ g, Missing features scheme w id target g ∧ e = .unavailable g.key (.rootNotStored g.key id)

/-- The target is not looked up; any other feature is read back if it is stored. -/
theorem yields_stored {α : Type} {k : Bool → Drafting α} {good : α → Draft → Prop}
    {wrong : Failure → Prop} (htelling : Telling features scheme w id target)
    (hf : f ∈ features.values) (hreached : Reached features scheme w id target f.key)
    (hflag : flag = true ∧ f.key = target ∨ flag = false ∧ f.key ≠ target)
    (hback : ReadBack scheme w id target f.key → (k true).Yields d good wrong)
    (habsent : f.key = target ∨ isStoredFor scheme w id f.key = .ok false →
      (k false).Yields d good wrong) :
    (if flag then pure false >>= k
      else Procedure.ofExcept (isStoredFor scheme w id f.key) >>= k).Yields d good wrong := by
  rcases hflag with ⟨rfl, htarget⟩ | ⟨rfl, hne⟩
  · exact yields_bind (yields_pure (habsent (Or.inl htarget)))
  · obtain ⟨stored, hstored⟩ := htelling f hf hreached hne
    rw [if_neg Bool.false_ne_true, hstored]
    cases stored with
    | true => exact yields_bind (yields_pure (hback ⟨hne, hstored⟩))
    | false => exact yields_bind (yields_pure (habsent (Or.inr hstored)))

theorem yields_readBack {wrong : Failure → Prop} (h : Retraced features scheme w id target d)
    (hf : f ∈ features.values) (hreached : Reached features scheme w id target f.key)
    (hback : ReadBack scheme w id target f.key) (hnew : f.key ∉ d.placed.map Prod.fst) :
    (do
      Draft.addSource f.key
      let node ← Draft.addNode f.key (Component.replay f.decoder) []
      Draft.place f.key node
      pure node : Drafting Nat).Yields d
        (fun m d' => Retraced features scheme w id target d' ∧ d.Meets (· = f.key) d' ∧
          (f.key, m) ∈ d'.placed) wrong := by
  have hwhole : ({ d with sources := d.sources ++ [f.key] } : Draft).Whole := ⟨h.built, h.intact⟩
  refine yields_bind (yields_change (yields_bind ((yields_addNode hwhole (by simp)).mono ?_ ?_)))
  · rintro _ d₁ ⟨rfl, hadded⟩
    refine yields_bind (yields_place (yields_pure ?_))
    have hsites : d₁.sites = d.sites ++ [⟨f.key, Component.replay f.decoder, []⟩] := hadded.sites
    have hwhole' : ({ d₁ with placed := (f.key, d.sites.length) :: d₁.placed } : Draft).Whole :=
      ⟨hadded.whole.built, hadded.whole.intact⟩
    have hgrown := h.grow hwhole' (h.fresh hnew) hsites
      (congrArg _ hadded.placed)
      ⟨f, hf, hreached, Or.inl ⟨hback, List.getElem?_concat_length⟩⟩
      (Or.inl ⟨hback, hadded.sources⟩)
    exact ⟨hgrown.1, hgrown.2, List.mem_cons_self⟩
  · rintro e ⟨hkey, -⟩
    exact absurd hkey (h.fresh hnew)

theorem yields_workOut {wrong : Failure → Prop} (h : Retraced features scheme w id target d)
    (hf : f ∈ features.values) (hreached : Reached features scheme w id target f.key)
    (hnot : ¬ ReadBack scheme w id target f.key) (hroot : f.needs ≠ [])
    (hnew : f.key ∉ d.placed.map Prod.fst) {needs : List Nat}
    (hneeds : List.Forall₂ (fun u key => ∃ p, features.get? key = some p ∧ Stands d.sites p.key u)
      needs f.needs) :
    (do
      let node ← Draft.addNode f.key f.component needs
      Draft.place f.key node
      pure node : Drafting Nat).Yields d
        (fun m d' => Retraced features scheme w id target d' ∧ d.Meets (· = f.key) d' ∧
          (f.key, m) ∈ d'.placed) wrong := by
  have hrange : ∀ u ∈ needs, u < d.sites.length := fun u hu => by
    obtain ⟨_, -, _, -, hstands⟩ := exists_of_forall₂ hneeds hu
    exact hstands.lt
  refine yields_bind ((yields_addNode h.toWhole hrange).mono ?_ ?_)
  · rintro _ d₁ ⟨rfl, hadded⟩
    refine yields_bind (yields_place (yields_pure ?_))
    have hworks : WorksOut features (d.sites ++ [⟨f.key, f.component, needs⟩]) f d.sites.length :=
      ⟨needs, List.getElem?_concat_length,
        hneeds.imp fun u key ⟨p, hp, hu⟩ => ⟨p, hp, hu.append⟩⟩
    have hwhole' : ({ d₁ with placed := (f.key, d.sites.length) :: d₁.placed } : Draft).Whole :=
      ⟨hadded.whole.built, hadded.whole.intact⟩
    have hgrown := h.grow hwhole' (h.fresh hnew) hadded.sites
      (congrArg _ hadded.placed) ⟨f, hf, hreached, Or.inr ⟨hnot, hroot, hworks⟩⟩
      (Or.inr ⟨hnot, hadded.sources⟩)
    exact ⟨hgrown.1, hgrown.2, List.mem_cons_self⟩
  · rintro e ⟨hkey, -⟩
    exact absurd hkey (h.fresh hnew)

/-- A feature that is reached is added with all that has to be there for it. Nothing goes wrong but
that a root is not there. -/
theorem yields_addPartial (haccepted : Accepted features)
    (htelling : Telling features scheme w id target)
    (hrank : Ranking features rank) (hf : f ∈ features.values)
    (hreached : Reached features scheme w id target f.key)
    (hflag : flag = true ∧ f.key = target ∨ flag = false ∧ rank f.key < rank target)
    (hdepth : rank f.key < depth) (h : Retraced features scheme w id target d) :
    (addPartial features scheme w id depth flag f).Yields d
      (fun m d' => Retraced features scheme w id target d' ∧ d.Meets (rank · ≤ rank f.key) d' ∧
        (f.key, m) ∈ d'.placed)
      (Lacking features scheme w id target) := by
  induction depth generalizing f d flag with
  | zero => exact absurd hdepth (Nat.not_lt_zero _)
  | succ depth ih =>
    rw [addPartial]
    refine yields_bind (yields_placed (fun m hm => yields_pure ⟨h, .refl _ _, hm⟩) fun hnew => ?_)
    have hone : ∀ {d₁ d₂ : Draft}, d₁.Meets (· = f.key) d₂ → d₁.Meets (rank · ≤ rank f.key) d₂ :=
      fun hmeets => hmeets.mono fun _ heq => heq ▸ Nat.le_refl _
    have hne : flag = true ∧ f.key = target ∨ flag = false ∧ f.key ≠ target :=
      hflag.imp_right fun ⟨hflag, hlt⟩ => ⟨hflag, fun heq => Nat.ne_of_lt hlt (congrArg rank heq)⟩
    refine yields_stored htelling hf hreached hne (fun hback => ?_) fun habsent => ?_
    · refine (yields_readBack h hf hreached hback hnew).mono ?_ fun _ h => h
      rintro m d₁ ⟨h₁, hmeets, hplaced⟩
      exact ⟨h₁, hone hmeets, hplaced⟩
    · simp only [Bool.false_eq_true, if_false]
      split
      · rename_i hroot
        exact yields_fail ⟨f, ⟨hf, hreached, List.isEmpty_iff.mp hroot, habsent⟩, rfl⟩
      · rename_i hroot
        have hbelow : ∀ key ∈ f.needs, rank key < rank target := fun key hneed => by
          have hlt := hrank.lt hf hneed
          rcases hflag with ⟨-, heq⟩ | ⟨-, hlow⟩
          · exact heq ▸ hlt
          · exact Nat.lt_trans hlt hlow
        have hcollect := yields_needs haccepted hrank hf
          (I := Retraced features scheme w id target)
          (addPartial features scheme w id depth false) (Lacking features scheme w id target)
          (fun h hplaced => (h.placed _ _).mp hplaced)
          (fun p hp hneed d h => ih hp (.need hf hreached habsent hneed)
            (Or.inr ⟨rfl, hbelow _ hneed⟩)
            (Nat.lt_of_lt_of_le (hrank.lt hf hneed) (by omega)) h) h hnew
        refine yields_bind (hcollect.mono ?_ fun _ h => h)
        rintro needs d₁ ⟨h₁, hmeets, hstill, hneeds⟩
        refine (yields_workOut h₁ hf hreached (not_readBack habsent)
          (fun hnil => hroot (List.isEmpty_iff.mpr hnil)) hstill hneeds).mono ?_ fun _ h => h
        rintro m d₂ ⟨h₂, hmeets₂, hplaced⟩
        exact ⟨h₂, (hmeets.mono fun _ hlt => Nat.le_of_lt hlt).trans (hone hmeets₂), hplaced⟩

/-! ## Partial graphs -/

/-- The node keeps what encodes the feature in memory. -/
def Captures (features : Dictionary Feature) (sites : List (Site Workspace)) (slot : Nat)
    (f : Feature) (m : Nat) : Prop :=
  ∃ u, Encodes features sites f u ∧
    sites[m]? = some ⟨captureKey f.key, Component.capture slot, [u]⟩

/-- The partial graph has a node for each feature that is reached, and one that encodes the target
and one that keeps it, and no others. What is stored is read back; what is not is worked out. -/
structure Retraces (features : Dictionary Feature) (scheme : KeyScheme) (w : Workspace)
    (id : String) (target : Feature) (slot : Nat) (plan : PartialGraph) : Prop where
  whole : plan.graph.Built ∧ (wiringOf plan.graph.nodes).Intact
  once : (keysOf (sitesOf plan.graph.nodes)).Nodup
  keys : ∀ key, key ∈ keysOf (sitesOf plan.graph.nodes) ↔
    Reached features scheme w id target.key key ∨ key = encoderKey target.key ∨
      key = captureKey target.key
  readBack : ∀ f ∈ features.values, Reached features scheme w id target.key f.key →
    ReadBack scheme w id target.key f.key →
    ∃ m : Nat, (sitesOf plan.graph.nodes)[m]? = some ⟨f.key, Component.replay f.decoder, []⟩
  worksOut : ∀ f ∈ features.values, Reached features scheme w id target.key f.key →
    ¬ ReadBack scheme w id target.key f.key →
    f.needs ≠ [] ∧ ∃ m, WorksOut features (sitesOf plan.graph.nodes) f m
  captures : ∃ m, Captures features (sitesOf plan.graph.nodes) slot target m
  sourcesOnce : plan.sources.Nodup
  sources : ∀ key, key ∈ plan.sources ↔
    Reached features scheme w id target.key key ∧ ReadBack scheme w id target.key key
  /-- Every call of every run is at a node that reads a feature back that is reached and stored,
  or works one out that is reached and not stored, or encodes or keeps the target. -/
  calls : ∀ inputs world m, callsAt (plan.graph.journal inputs world) m ≠ [] →
    Recalls features scheme w id target.key (sitesOf plan.graph.nodes) m ∨
      Encodes features (sitesOf plan.graph.nodes) target m ∨
      Captures features (sitesOf plan.graph.nodes) slot target m

namespace Retraced

/-- A node is there for a feature of its key. -/
theorem feature_of_stands (h : Retraced features scheme w id target d)
    (hm : Stands d.sites key m) : ∃ f ∈ features.values, f.key = key ∧
      Reached features scheme w id target f.key ∧
      (ReadBack scheme w id target f.key ∧
          d.sites[m]? = some ⟨f.key, Component.replay f.decoder, []⟩ ∨
        ¬ ReadBack scheme w id target f.key ∧ f.needs ≠ [] ∧ WorksOut features d.sites f m) := by
  obtain ⟨site, hsite, rfl⟩ := hm
  obtain ⟨f, hf, hreached, hrecalls⟩ := h.recalls m (List.getElem?_eq_some_iff.mp hsite).1
  refine ⟨f, hf, ?_, hreached, hrecalls⟩
  rcases hrecalls with ⟨-, hback⟩ | ⟨-, -, _, hworks, -⟩
  · rw [hsite] at hback
    cases hback
    rfl
  · rw [hsite] at hworks
    cases hworks
    rfl

variable (h : Retraced features scheme w id target d) (hkeyed : Keyed features)

include h hkeyed

/-- The node of a feature reads it back, or works it out. -/
theorem recalls_of_stands (hf : f ∈ features.values) (hm : Stands d.sites f.key m) :
    ReadBack scheme w id target f.key ∧
        d.sites[m]? = some ⟨f.key, Component.replay f.decoder, []⟩ ∨
      ¬ ReadBack scheme w id target f.key ∧ f.needs ≠ [] ∧ WorksOut features d.sites f m := by
  obtain ⟨g, hg, hkey, -, hrecalls⟩ := h.feature_of_stands hm
  obtain rfl : g = f := hkeyed.eq_of_key_eq hg hf hkey
  exact hrecalls

/-- Once the target has its node, every feature that is reached has one. -/
theorem stands_of_reached (htarget : target ∈ keysOf d.sites)
    (hreached : Reached features scheme w id target key) : key ∈ keysOf d.sites := by
  induction hreached with
  | target => exact htarget
  | @need f key hf _ habsent hkey ih =>
    obtain ⟨m, hm⟩ := exists_stands ih
    obtain ⟨hback, -⟩ | ⟨-, -, needs, -, hneeds⟩ := h.recalls_of_stands hkeyed hf hm
    · exact absurd hback (not_readBack habsent)
    · obtain ⟨u, -, p, hp, hu⟩ := exists_of_forall₂ (.flip hneeds) hkey
      exact hkeyed hp ▸ hu.mem

/-- Once the target has its node, no root is missing. -/
theorem not_missing (htarget : target ∈ keysOf d.sites) :
    ¬ Missing features scheme w id target f := by
  intro hmissing
  obtain ⟨m, hm⟩ := exists_stands (h.stands_of_reached hkeyed htarget hmissing.reached)
  obtain ⟨hback, -⟩ | ⟨-, hneeds, -⟩ := h.recalls_of_stands hkeyed hmissing.declared hm
  · exact not_readBack hmissing.absent hback
  · exact hneeds hmissing.root

/-- The keys of the nodes of features are those that are reached. -/
theorem mem_keysOf (htarget : target ∈ keysOf d.sites) :
    key ∈ keysOf d.sites ↔ Reached features scheme w id target key := by
  refine ⟨fun hkey => ?_, h.stands_of_reached hkeyed htarget⟩
  obtain ⟨m, hm⟩ := exists_stands hkey
  obtain ⟨f, -, rfl, hreached, -⟩ := h.feature_of_stands hm
  exact hreached

end Retraced

section Complete

variable {slot : Nat}

/-- What encodes the target and what keeps it complete the graph. -/
theorem Retraced.retraces (h : Retraced features scheme w id f.key d) (hkeyed : Keyed features)
    (hf : f ∈ features.values) (hm : Stands d.sites f.key m) (hwhole : d'.Whole)
    (hsites : d'.sites = d.sites ++ [⟨encoderKey f.key, Component.encoding f.encoder, [m]⟩,
      ⟨captureKey f.key, Component.capture slot, [d.sites.length]⟩])
    (hsources : d'.sources = d.sources) :
    Retraces features scheme w id f slot ⟨d'.graph, d'.sources⟩ := by
  have hkeys : keysOf d'.sites = keysOf d.sites ++ [encoderKey f.key, captureKey f.key] := by
    rw [hsites, keysOf_append]
    rfl
  have hreached : ∀ {key}, key ∈ keysOf d.sites ↔ Reached features scheme w id f.key key :=
    h.mem_keysOf hkeyed hm.mem
  have hworks : WorksOut features d.sites f m := by
    rcases h.recalls_of_stands hkeyed hf hm with ⟨hback, -⟩ | ⟨-, -, hworks⟩
    · exact absurd hback (not_readBack (Or.inl rfl))
    · exact hworks
  have hencodes : Encodes features d'.sites f d.sites.length :=
    ⟨m, hsites ▸ hworks.append, by rw [hsites, List.getElem?_append_right (Nat.le_refl _)]; simp⟩
  have hcaptures : Captures features d'.sites slot f (d.sites.length + 1) :=
    ⟨_, hencodes, by rw [hsites, List.getElem?_append_right (Nat.le_succ _)]; simp⟩
  refine ⟨⟨hwhole.built, hwhole.intact⟩, hwhole.nodup, fun key => ?_, fun g hg hmem hback => ?_,
    fun g hg hmem hnot => ?_, ⟨_, hcaptures⟩, ?_, fun key => ?_, fun inputs world k hcalls => ?_⟩
  · change key ∈ keysOf d'.sites ↔ _
    rw [hkeys, List.mem_append, hreached, List.mem_pair]
  · obtain ⟨k, hk⟩ := exists_stands (hreached.mpr hmem)
    rcases h.recalls_of_stands hkeyed hg hk with ⟨-, hsite⟩ | ⟨hnot, -⟩
    · exact ⟨k, (congrArg (·[k]?) hsites).trans (getElem?_append hsite)⟩
    · exact absurd hback hnot
  · obtain ⟨k, hk⟩ := exists_stands (hreached.mpr hmem)
    rcases h.recalls_of_stands hkeyed hg hk with ⟨hback, -⟩ | ⟨-, hneeds, hworks⟩
    · exact absurd hback hnot
    · have hworks' : WorksOut features d'.sites g k := hsites ▸ hworks.append
      exact ⟨hneeds, k, hworks'⟩
  · change d'.sources.Nodup
    exact hsources ▸ h.distinct
  · change key ∈ d'.sources ↔ _
    rw [hsources, h.sources, hreached]
  · have hlt : k < d'.sites.length := by
      rw [Draft.sites, sitesOf, List.length_map]
      exact hwhole.built.ready.node_of_call hcalls
    rw [hsites, List.length_append, List.length_cons, List.length_singleton] at hlt
    rcases Nat.lt_or_ge k d.sites.length with hold | hnew
    · have hrecalls : Recalls features scheme w id f.key d'.sites k :=
        hsites ▸ (h.recalls k hold).append
      exact Or.inl hrecalls
    · rcases Nat.eq_or_lt_of_le hnew with rfl | hlast
      · exact Or.inr (Or.inl hencodes)
      · obtain rfl : k = d.sites.length + 1 := by omega
        exact Or.inr (Or.inr hcaptures)

/-- There is a partial graph unless a root is missing, or a feature that is reached has the key of
what encodes the target or of what keeps it. -/
theorem partialGraph_cases (haccepted : Accepted features)
    (htelling : Telling features scheme w id f.key) (hf : f ∈ features.values)
    (schema : String) (slot : Nat) :
    (∃ g, Missing features scheme w id f.key g ∧
      partialGraph schema features scheme w id f.key slot =
        .error (.unavailable g.key (.rootNotStored g.key id))) ∨
    (∀ g, ¬ Missing features scheme w id f.key g) ∧
      ((∃ plan, partialGraph schema features scheme w id f.key slot = .ok plan ∧
          Retraces features scheme w id f slot plan) ∨
        ∃ key ∈ [encoderKey f.key, captureKey f.key], key ∈ features.keys ∧
          Reached features scheme w id f.key key ∧
          partialGraph schema features scheme w id f.key slot =
            .error (.graph (.duplicateNode key))) := by
  obtain ⟨rank, hrank⟩ := haccepted.ranked
  have hdraft : (withFeature features f.key fun f' => do
      let node ← addPartial features scheme w id (features.size + 1) true f'
      let encoder ← Draft.addNode (encoderKey f.key) (Component.encoding f'.encoder) [node]
      let _ ← Draft.addNode (captureKey f.key) (Component.capture slot) [encoder]
      pure () : Drafting Unit).Yields (Draft.empty (schema ++ ":" ++ id ++ ":" ++ f.key))
      (fun _ d' => (∀ g, ¬ Missing features scheme w id f.key g) ∧
        Retraces features scheme w id f slot ⟨d'.graph, d'.sources⟩)
      (fun e => Lacking features scheme w id f.key e ∨
        (∀ g, ¬ Missing features scheme w id f.key g) ∧
          ∃ key ∈ [encoderKey f.key, captureKey f.key], key ∈ features.keys ∧
            Reached features scheme w id f.key key ∧ e = .graph (.duplicateNode key)) := by
    rw [withFeature, haccepted.keyed.get?_key hf]
    refine yields_bind ((yields_addPartial haccepted htelling hrank hf .target (Or.inl ⟨rfl, rfl⟩)
      (Nat.lt_succ_of_lt (hrank.lt_size hf)) (retraced_empty _)).mono ?_ fun e he => Or.inl he)
    rintro m d ⟨h, -, hplaced⟩
    have hm : Stands d.sites f.key m := (h.placed _ _).mp hplaced
    have hnone : ∀ g, ¬ Missing features scheme w id f.key g := fun g =>
      h.not_missing haccepted.keyed hm.mem
    refine (yields_chain (encoderKey_ne_captureKey _ _).symm h.toWhole hm.lt).mono ?_ ?_
    · rintro - d' ⟨hwhole, hsites, -, hsources⟩
      exact ⟨hnone, h.retraces haccepted.keyed hf hm hwhole hsites hsources⟩
    · rintro e ⟨key, hkey, hmem, rfl⟩
      obtain ⟨k, hk⟩ := exists_stands hmem
      obtain ⟨g, hg, rfl, hreached, -⟩ := h.feature_of_stands hk
      exact Or.inr ⟨hnone, g.key, hkey,
        Dictionary.mem_keys.mpr ⟨g, haccepted.keyed.get?_key hg⟩, hreached, rfl⟩
  unfold Yields at hdraft
  unfold partialGraph
  dsimp only
  split at hdraft
  · rename_i heq
    rw [heq]
    exact Or.inr ⟨hdraft.1, Or.inl ⟨_, rfl, hdraft.2⟩⟩
  · rename_i heq
    rw [heq]
    rcases hdraft with ⟨g, hg, rfl⟩ | ⟨hnone, key, hkey, hmem, hreached, rfl⟩
    · exact Or.inl ⟨g, hg, rfl⟩
    · exact Or.inr ⟨hnone, Or.inr ⟨key, hkey, hmem, hreached, rfl⟩⟩

end Complete

/-- The partial graph of a feature of an accepted schema stops at the features that are stored.
There is none exactly if a way up ends at a root that is not stored. -/
theorem recomputation_is_minimal {name : String} {idSource : IdSource} {declarations : List Feature}
    {s : Schema} (hbuild : build name scheme idSource declarations = .ok s)
    (hf : f ∈ s.features.values) (htelling : Telling s.features s.scheme w id f.key)
    (hencoder : encoderKey f.key ∉ s.features.keys) (hcapture : captureKey f.key ∉ s.features.keys)
    (slot : Nat) :
    ((∃ feature reason, partialGraph s.name s.features s.scheme w id f.key slot =
        .error (.unavailable feature reason)) ↔
      ∃ g, Missing s.features s.scheme w id f.key g) ∧
    ((¬ ∃ g, Missing s.features s.scheme w id f.key g) →
      ∃ plan, partialGraph s.name s.features s.scheme w id f.key slot = .ok plan ∧
        Retraces s.features s.scheme w id f slot plan) := by
  rcases partialGraph_cases (accepted_build hbuild) htelling hf s.name slot with
    ⟨g, hg, herror⟩ | ⟨hnone, ⟨plan, hplan, hretraces⟩ | ⟨key, hkey, hmem, -⟩⟩
  · exact ⟨⟨fun _ => ⟨g, hg⟩, fun _ => ⟨_, _, herror⟩⟩, fun hnone => absurd ⟨g, hg⟩ hnone⟩
  · refine ⟨⟨?_, fun ⟨g, hg⟩ => absurd hg (hnone g)⟩, fun _ => ⟨plan, hplan, hretraces⟩⟩
    rintro ⟨feature, reason, herror⟩
    rw [hplan] at herror
    cases herror
  · rcases List.mem_pair.mp hkey with rfl | rfl
    · exact absurd hmem hencoder
    · exact absurd hmem hcapture

end

/-! ## A feature that stops at a stored one -/

/-- It hands on what it needs. -/
def echo : Feature :=
  { Feature.new "c" (.stateless fun data => .ok [.ok data]) with needs := ["b"] }

def echoing : Schema := { muted with features := muted.features.insert "c" echo }

/-- The feature that is handed on is stored, and what it was worked out of is not. -/
def halfStored : Workspace :=
  { blank with store := .memory (Dictionary.empty.insert "e:b" ⟨octetStream, Text.encode "x"⟩) }

theorem halfStored_telling : Telling echoing.features echoing.scheme halfStored "e" "c" := by
  intro f _ _ _
  exact ⟨_, rfl⟩

theorem mem_echoing {f : Feature} (h : f ∈ echoing.features.values) :
    f = text ∨ f = mute ∨ f = echo := by
  simpa using (show f ∈ [text, mute, echo] from h)

theorem reached_echo {key : String}
    (h : Reached echoing.features echoing.scheme halfStored "e" "c" key) :
    key = "c" ∨ key = "b" := by
  induction h with
  | target => exact Or.inl rfl
  | need hf _ habsent hkey ih =>
    rcases mem_echoing hf with rfl | rfl | rfl
    · cases hkey
    · exact absurd habsent (by decide)
    · exact Or.inr (List.mem_singleton.mp hkey)

/-- What is stored is read back, and what that was worked out of has no node. -/
theorem echo_stops_at_stored :
    build "s" (.delimited ":") (.input "id") [text, mute, echo] = .ok echoing ∧
      echo ∈ echoing.features.values ∧
      Telling echoing.features echoing.scheme halfStored "e" "c" ∧
      encoderKey "c" ∉ echoing.features.keys ∧ captureKey "c" ∉ echoing.features.keys ∧
      ∃ plan, partialGraph "s" echoing.features echoing.scheme halfStored "e" "c" 0 = .ok plan ∧
        plan.sources = ["b"] ∧ "a" ∉ keysOf (sitesOf plan.graph.nodes) := by
  have hbuild : build "s" (.delimited ":") (.input "id") [text, mute, echo] = .ok echoing := rfl
  have hecho : echo ∈ echoing.features.values :=
    List.mem_cons_of_mem _ (List.mem_cons_of_mem _ List.mem_cons_self)
  have hencoder : encoderKey "c" ∉ echoing.features.keys := by decide +kernel
  have hcapture : captureKey "c" ∉ echoing.features.keys := by decide +kernel
  refine ⟨hbuild, hecho, halfStored_telling, hencoder, hcapture, ?_⟩
  obtain ⟨plan, hplan, hretraces⟩ := (recomputation_is_minimal (f := echo) hbuild hecho
    halfStored_telling hencoder hcapture 0).2 fun ⟨g, hmissing⟩ => by
      rcases mem_echoing hmissing.declared with rfl | rfl | rfl
      · exact absurd (reached_echo hmissing.reached) (by decide)
      · exact absurd hmissing.root (by decide)
      · exact absurd hmissing.root (by decide)
  refine ⟨plan, hplan, ?_, fun hmem => ?_⟩
  · have hb : ReadBack echoing.scheme halfStored "e" "c" "b" := ⟨by decide, rfl⟩
    refine List.perm_singleton.mp ((List.perm_ext_iff_of_nodup hretraces.sourcesOnce
      (List.nodup_singleton _)).mpr fun key => ?_)
    rw [hretraces.sources, List.mem_singleton]
    constructor
    · rintro ⟨hreached, hne, -⟩
      exact (reached_echo hreached).resolve_left hne
    · rintro rfl
      exact ⟨.need hecho .target (Or.inl rfl) List.mem_cons_self, hb⟩
  · rcases (hretraces.keys "a").mp hmem with hreached | hkey
    · exact absurd (reached_echo hreached) (by decide)
    · exact absurd hkey (by decide +kernel)

end Schema

end FeatureGraph
