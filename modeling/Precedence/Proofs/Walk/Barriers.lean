import Precedence.Build.Barrier
import Precedence.Proofs.Walk.RegisterEdges

/-!
Barriers keep everything on its side. A unit below the walk is either one of those met since the
nearest barrier or behind that barrier.
-/
namespace Precedence

/-- Unit `x` has been met since the nearest barrier or is behind it. -/
def Barriers.Covers (c : Barriers) (g : Graph) (x : Nat) : Prop :=
  .unit x ∈ c.since ∨ ∃ n, c.last = some n ∧ g.Path n (.unit x)

theorem Barriers.Covers.grows {c : Barriers} {g g' : Graph} {x : Nat} (h : c.Covers g x)
    (hg : g.Grows g') : c.Covers g' x :=
  h.imp_right fun ⟨n, hn, hp⟩ => ⟨n, hn, hg.path hp⟩

variable {s : Setup} {b : Block} {units : List Instr} {su : NodeId} {i : Instr} {t t' : Tracker}
  {d d' : Draft}

theorem Draft.orderBefore_ok {nodes : List NodeId} (hw : d.graph.Wraps b units)
    (h : d.orderBefore su nodes = .ok d') :
    d.graph.Grows d'.graph ∧ ∀ n ∈ nodes, d'.graph.Path su n :=
  foldlM_links (fun n g => g.Path su n) (fun _ _ _ hp hg => hg.path hp)
    (fun n _ e e' he h => by
      obtain ⟨hg, hedge⟩ := withDep_ok h
      exact ⟨hg, (hedge he.linked).path⟩) hw h

theorem Draft.orderBefore_adds {nodes : List NodeId} (hw : d.graph.Wraps b units)
    (h : d.orderBefore su nodes = .ok d') :
    d.graph.Adds d'.graph fun p n k r => p = su ∧ r = none ∧ k = .order ∧ n ∈ nodes := by
  refine (foldlM_adds (fun n _ e e' he h => withDep_adds he.linked h) hw h).congr
    fun p n k r => ⟨?_, ?_⟩
  · rintro ⟨n, hn, rfl, rfl, rfl, rfl⟩
    exact ⟨rfl, rfl, rfl, hn⟩
  · rintro ⟨rfl, rfl, rfl, hn⟩
    exact ⟨n, hn, rfl, rfl, rfl, rfl⟩

namespace Tracker

theorem clear_sound (ht : t.Sound) : t.clear.Sound :=
  ⟨(SparseMap.clear_spec ht.defs).1, (SparseMap.clear_spec ht.uses).1⟩

theorem mem_exitReads (ht : t.Sound) {a : Reg} :
    a ∈ t.exitReads ↔ .exit ∈ t.uses.nodesOf a := by
  rw [← RegNodes.mem_toList ht.uses]
  simp [exitReads]

/-- What has been recorded on top of a tracker: for which registers which nodes as writes, and
which as reads. -/
structure Recorded (t t' : Tracker) (defs uses : Reg → NodeId → Prop) : Prop where
  sound : t'.Sound
  defs_iff : ∀ a n, n ∈ t'.defs.nodesOf a ↔ n ∈ t.defs.nodesOf a ∨ defs a n
  uses_iff : ∀ a n, n ∈ t'.uses.nodesOf a ↔ n ∈ t.uses.nodesOf a ∨ uses a n

theorem Recorded.nothing (ht : t.Sound) : Recorded t t (fun _ _ => False) fun _ _ => False :=
  ⟨ht, by simp, by simp⟩

theorem Recorded.congr {defs defs' uses uses' : Reg → NodeId → Prop} (h : Recorded t t' defs uses)
    (hdefs : ∀ a n, defs a n ↔ defs' a n) (huses : ∀ a n, uses a n ↔ uses' a n) :
    Recorded t t' defs' uses' :=
  ⟨h.sound, fun a n => by rw [h.defs_iff, hdefs], fun a n => by rw [h.uses_iff, huses]⟩

theorem Recorded.trans {t'' : Tracker} {defs defs' uses uses' : Reg → NodeId → Prop}
    (h : Recorded t t' defs uses) (h' : Recorded t' t'' defs' uses') :
    Recorded t t'' (fun a n => defs a n ∨ defs' a n) fun a n => uses a n ∨ uses' a n :=
  ⟨h'.sound, fun a n => by rw [h'.defs_iff, h.defs_iff, or_assoc],
    fun a n => by rw [h'.uses_iff, h.uses_iff, or_assoc]⟩

theorem recordDef_recorded {r : Reg} (ht : t.Sound) (h : t.recordDef r su = .ok t') :
    Recorded t t' (fun a n => a = r ∧ n = su) fun _ _ => False := by
  obtain ⟨hsound, huses, hdefs⟩ := recordDef_ok ht h
  refine ⟨hsound, fun a n => ?_, by simp [huses]⟩
  by_cases ha : a = r
  · subst ha
    simp [hdefs]
  · simp [hdefs, ha]

theorem recordUse_recorded {r : Reg} (ht : t.Sound) (h : t.recordUse r su = .ok t') :
    Recorded t t' (fun _ _ => False) fun a n => a = r ∧ n = su := by
  obtain ⟨hsound, hdefs, huses⟩ := recordUse_ok ht h
  refine ⟨hsound, by simp [hdefs], fun a n => ?_⟩
  by_cases ha : a = r
  · subst ha
    simp [huses]
  · simp [huses, ha]

/-- A loop records what its rounds record. -/
theorem recorded_of_foldlM {α : Type} {f : Tracker → α → Except Fault Tracker} {l : List α}
    (defs uses : α → Reg → NodeId → Prop)
    (step : ∀ x ∈ l, ∀ t t', t.Sound → f t x = .ok t' → Recorded t t' (defs x) (uses x))
    (ht : t.Sound) (h : l.foldlM f t = .ok t') :
    Recorded t t' (fun a n => ∃ x ∈ l, defs x a n) fun a n => ∃ x ∈ l, uses x a n := by
  induction l generalizing t with
  | nil =>
    rw [List.foldlM_nil, pure_eq_ok] at h
    exact h ▸ (Recorded.nothing ht).congr (by simp) (by simp)
  | cons x l ih =>
    rw [List.foldlM_cons, bind_eq_ok] at h
    obtain ⟨u, hu, h⟩ := h
    have hfirst := step x List.mem_cons_self t u ht hu
    have hrest := ih (fun y hy => step y (List.mem_cons_of_mem x hy)) hfirst.sound h
    exact (hfirst.trans hrest).congr (by simp) (by simp)

/-- The operands of an instruction are recorded as they stand. -/
theorem recordOperands_ok (ht : t.Sound) (h : t.recordOperands s su i = .ok t') :
    Recorded t t' (fun a n => s.regs.isPhysical a ∧ a ∈ i.defs ∧ n = su)
      fun a n => s.regs.isPhysical a ∧ a ∈ i.uses ∧ n = su := by
  have hround : ∀ (e : Nat × RegOperand) (u u' : Tracker), u.Sound →
      (if !s.regs.isPhysical e.2.reg then pure u
        else if e.2.isDef then u.recordDef e.2.reg su
        else if e.2.reads then u.recordUse e.2.reg su
        else pure u : Except Fault Tracker) = .ok u' →
      Recorded u u' (fun a n => s.regs.isPhysical e.2.reg ∧ e.2.isDef ∧ a = e.2.reg ∧ n = su)
        fun a n => s.regs.isPhysical e.2.reg ∧ e.2.reads ∧ a = e.2.reg ∧ n = su := by
    intro e u u' hu h
    split at h
    next hp =>
      cases h
      exact (Recorded.nothing hu).congr (by simp_all) (by simp_all)
    split at h
    next hp hd =>
      exact (recordDef_recorded hu h).congr (by simp_all) (by simp_all [RegOperand.reads])
    split at h
    next hp hd hr => exact (recordUse_recorded hu h).congr (by simp_all) (by simp_all)
    next hp hd hr =>
      cases h
      exact (Recorded.nothing hu).congr (by simp_all) (by simp_all)
  have hfold := recorded_of_foldlM _ _ (fun e _ => hround e) ht h
  refine hfold.congr (fun a n => ?_) fun a n => ?_
  · simp only [Instr.defs, Instr.defOperands, List.mem_map, List.mem_filter]
    constructor
    · rintro ⟨e, he, hp, hd, rfl, rfl⟩
      exact ⟨hp, ⟨e, ⟨he, hd⟩, rfl⟩, rfl⟩
    · rintro ⟨hp, ⟨e, ⟨he, hd⟩, rfl⟩, rfl⟩
      exact ⟨e, he, hp, hd, rfl, rfl⟩
  · simp only [Instr.uses, Instr.useOperands, List.mem_map, List.mem_filter]
    constructor
    · rintro ⟨e, he, hp, hd, rfl, rfl⟩
      exact ⟨hp, ⟨e, ⟨he, hd⟩, rfl⟩, rfl⟩
    · rintro ⟨hp, ⟨e, ⟨he, hd⟩, rfl⟩, rfl⟩
      exact ⟨e, he, hp, hd, rfl, rfl⟩

/-- What a barrier leaves known: the reads of the exit, and the operands of the barrier itself. -/
structure Restarted (s : Setup) (su : NodeId) (i : Instr) (t t' : Tracker) : Prop where
  sound : t'.Sound
  defs_iff : ∀ a n, n ∈ t'.defs.nodesOf a ↔ s.regs.isPhysical a ∧ a ∈ i.defs ∧ n = su
  uses_iff : ∀ a n, n ∈ t'.uses.nodesOf a ↔
    (n = .exit ∧ .exit ∈ t.uses.nodesOf a) ∨ (s.regs.isPhysical a ∧ a ∈ i.uses ∧ n = su)

theorem restart_ok (ht : t.Sound) (h : t.restart s su i = .ok t') : Restarted s su i t t' := by
  simp only [restart, bind_eq_ok] at h
  obtain ⟨kept, hkept, h⟩ := h
  have hexit := recorded_of_foldlM (fun _ _ _ => False) (fun r a n => a = r ∧ n = .exit)
    (fun r _ u u' hu h => recordUse_recorded hu h) (clear_sound ht) hkept
  have hown := recordOperands_ok hexit.sound h
  have hdefs : ∀ a, t.clear.defs.nodesOf a = [] :=
    fun a => congrFun (SparseMap.clear_spec ht.defs).2.2 a.number
  have huses : ∀ a, t.clear.uses.nodesOf a = [] :=
    fun a => congrFun (SparseMap.clear_spec ht.uses).2.2 a.number
  refine ⟨hown.sound, fun a n => ?_, fun a n => ?_⟩
  · rw [hown.defs_iff, hexit.defs_iff, hdefs]
    simp
  · rw [hown.uses_iff, hexit.uses_iff, huses, ← mem_exitReads ht]
    simp [and_comm]

end Tracker

/-- What the edges around barriers leave behind. A barrier comes before every unit below it, any
other unit before those behind the nearest barrier, and only a barrier makes the walk forget
registers. -/
structure BarrierStep (s : Setup) (su : Nat) (i : Instr) (c : Barriers) (t : Tracker) (d : Draft)
    (c' : Barriers) (t' : Tracker) (d' : Draft) : Prop where
  grows : d.graph.Grows d'.graph
  sound : t.Sound → t'.Sound
  meets : ∀ x, c.Covers d.graph x → i.isBarrier ∨ .unit x ∉ c.since →
    d'.graph.Path (.unit su) (.unit x)
  covers : ∀ x, c.Covers d.graph x ∨ x = su → c'.Covers d'.graph x
  since : ∀ x, .unit x ∈ c'.since → ¬i.isBarrier ∧ t' = t ∧ (.unit x ∈ c.since ∨ x = su)
  adds : d.graph.AddsOnly d'.graph fun p n k r => p = .unit su ∧ r = none ∧ k = .order ∧
    (c.last = some n ∨ (i.isBarrier ∧ n ∈ c.since))
  barrier : i.isBarrier → c' = { last := some (.unit su) } ∧
    (t.Sound → Tracker.Restarted s (.unit su) i t t')
  plain : ¬i.isBarrier → c' = { c with since := c.since ++ [.unit su] } ∧ t' = t

theorem addBarrierDeps_ok {su : Nat} {c c' : Barriers} (hw : d.graph.Wraps b units)
    (h : addBarrierDeps s (.unit su) i c t d = .ok (c', t', d')) :
    BarrierStep s su i c t d c' t' d' := by
  unfold addBarrierDeps at h
  split at h
  next hbarrier =>
    simp only [bind_eq_ok, pure_eq_ok, Prod.mk.injEq] at h
    obtain ⟨d₁, hd, t₁, ht, rfl, rfl, rfl⟩ := h
    obtain ⟨hg, hp⟩ := Draft.orderBefore_ok hw hd
    have hadds := Draft.orderBefore_adds hw hd
    have hmeets : ∀ x, c.Covers d.graph x → d₁.graph.Path (.unit su) (.unit x) := by
      rintro x (hx | ⟨n, hn, hx⟩)
      · exact hp _ (List.mem_append_left _ hx)
      · exact (hp n (by simp [hn])).trans (hg.path hx)
    refine ⟨hg, fun hs => (Tracker.restart_ok hs ht).sound, fun x hx _ => hmeets x hx,
      fun x hx => ?_, fun x hx => by simp at hx, hadds.only.mono ?_,
      fun _ => ⟨rfl, fun hs => Tracker.restart_ok hs ht⟩, fun hb => absurd hbarrier hb⟩
    · refine .inr ⟨.unit su, rfl, ?_⟩
      rcases hx with hx | rfl
      · exact hmeets x hx
      · exact .refl
    · rintro p n k r ⟨rfl, rfl, rfl, hn⟩
      rw [List.mem_append, Option.mem_toList] at hn
      exact ⟨rfl, rfl, rfl, hn.symm.imp_right fun hn => ⟨hbarrier, hn⟩⟩
  next hbarrier =>
    simp only [bind_eq_ok, pure_eq_ok, Prod.mk.injEq] at h
    obtain ⟨d₁, hd, rfl, rfl, rfl⟩ := h
    obtain ⟨hg, hp⟩ := Draft.orderBefore_ok hw hd
    refine ⟨hg, id, fun x hx hsince => ?_, fun x hx => ?_, fun x hx => ⟨hbarrier, rfl, ?_⟩,
      (Draft.orderBefore_adds hw hd).only.mono ?_, fun hb => absurd hb hbarrier,
      fun _ => ⟨rfl, rfl⟩⟩
    · obtain ⟨n, hn, hx⟩ := hx.resolve_left (hsince.resolve_left hbarrier)
      exact (hp n (by simp [hn])).trans (hg.path hx)
    · rcases hx with hx | rfl
      · exact (hx.grows hg).imp_left (List.mem_append_left _)
      · exact .inl (by simp)
    · simpa using hx
    · rintro p n k r ⟨rfl, rfl, rfl, hn⟩
      exact ⟨rfl, rfl, rfl, .inl (by simpa using hn)⟩

end Precedence
