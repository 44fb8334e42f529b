import Xgc.Algo.Mark
import Xgc.Lib.Runs
import Xgc.Lib.Tracing

/-! The mark phase as a run of single steps: marking one reference, or taking one object off the
    worklist. Nothing is asked of the graph: it may have cycles, and references to what is not
    tracked. Whatever the order of the steps, each tracked object is pushed and traced at most
    once, and the loop that drains the worklist ends by itself. -/

namespace Xgc

open Lib

/-- One step of a mark phase. The event is a push when `gc_worklist_push` is called, whether or not
    it has room. -/
inductive MarkStep (g : Graph) : MarkCtx → TraceEvent Addr → MarkCtx → Prop
  | known {ctx : MarkCtx} {v : Addr} (h : markObject g ctx v = ctx) :
    MarkStep g ctx .other (markObject g ctx v)
  | mark {ctx : MarkCtx} {v : Addr} {node : GcNode} (hv : v ≠ 0)
    (hl : lookup GcNode.obj v ctx.nodes = some node) (hm : node.marked = false) :
    MarkStep g ctx (.push v) (markObject g ctx v)
  | pop {ctx : MarkCtx} (h : (gcWorklistPop ctx.wl).2 ≠ 0) :
    MarkStep g ctx (.pop (gcWorklistPop ctx.wl).2) { ctx with wl := (gcWorklistPop ctx.wl).1 }
  | stray {ctx : MarkCtx} : MarkStep g ctx .other { ctx with mem := { ctx.mem with fault := true } }

/-! ### The loops are runs -/

section

variable {g : Graph}

theorem MarkStep.markObject (g : Graph) (ctx : MarkCtx) (v : Addr) :
    ∃ e, MarkStep g ctx e (Xgc.markObject g ctx v) := by
  rcases markObject_cases g ctx v with ⟨hsame, -⟩ | ⟨node, hv, hl, hm, -⟩
  · exact ⟨_, .known hsame⟩
  · exact ⟨_, .mark hv hl hm⟩

theorem markAll_run : ∀ (refs : List Addr) (ctx : MarkCtx),
    ∃ events, Run (MarkStep g) ctx events (markAll g ctx refs)
  | [], ctx => ⟨[], .nil ctx⟩
  | v :: refs, ctx => by
      obtain ⟨e, he⟩ := MarkStep.markObject g ctx v
      obtain ⟨events, hrun⟩ := markAll_run refs (markObject g ctx v)
      exact ⟨[e] ++ events, (Run.single he).trans hrun⟩

/-- The marking of the handles and the roots. -/
theorem markStart_run (ctx : MarkCtx) :
    ∃ events, Run (MarkStep g) ctx events (markRoots g (markHandles g ctx)) := by
  obtain ⟨events, hrun⟩ := markAll_run (g := g) (g.handles.map GcHandle.target) ctx
  unfold markRoots
  split
  · next scan _ =>
    obtain ⟨events', hrun'⟩ := markAll_run (g := g) ((scan g.roots).map g.roots) (markHandles g ctx)
    exact ⟨events ++ events', hrun.trans hrun'⟩
  · exact ⟨events, hrun⟩

theorem markChildren_run (ctx : MarkCtx) (obj : Addr) :
    ∃ events, Run (MarkStep g) ctx events (markChildren g ctx obj) := by
  unfold markChildren
  split
  · exact ⟨[.other], .single .stray⟩
  · exact markAll_run _ ctx

/-! ### Once each -/

/-- A worklist onto which each address has been pushed at most once, and `NULL` never. -/
structure TracedWorklist (events : List (TraceEvent Addr)) (wl : GcWorklist) : Prop where
  worklist : wl.Ok
  nonNull : 0 ∉ pushed events
  once : (pushed events).Nodup
  balanced : Balanced events wl.items

namespace TracedWorklist

variable {events : List (TraceEvent Addr)} {wl : GcWorklist}

theorem init (hwl : wl.Ok) (hempty : wl.items = []) : TracedWorklist [] wl where
  worklist := hwl
  nonNull := List.not_mem_nil
  once := List.nodup_nil
  balanced := hempty ▸ Balanced.nil

theorem other (h : TracedWorklist events wl) : TracedWorklist (events ++ [.other]) wl where
  worklist := h.worklist
  nonNull := by simpa using h.nonNull
  once := by simpa using h.once
  balanced := h.balanced.other

/-- A push of an address that has not been pushed, whether or not there is room for it. -/
theorem push (h : TracedWorklist events wl) {x : Addr} (hx : x ≠ 0) (hfresh : x ∉ pushed events)
    (m : Mem) : TracedWorklist (events ++ [.push x]) (gcWorklistPush wl x m).1 := by
  have hnonNull : 0 ∉ pushed (events ++ [.push x]) := by
    simpa using ⟨h.nonNull, Ne.symm hx⟩
  have honce : (pushed (events ++ [.push x])).Nodup := by
    rw [pushed_append, pushed_push, List.nodup_append]
    refine ⟨h.once, List.nodup_singleton x, fun a ha b hb => ?_⟩
    rw [List.mem_singleton.mp hb]
    exact fun he => hfresh (he ▸ ha)
  rcases GcWorklist.push_cases h.worklist hx m with ⟨wl', m', heq, hok, hitems, -⟩ | ⟨k, heq⟩
  · rw [heq]
    exact ⟨hok, hnonNull, honce, hitems ▸ h.balanced.push⟩
  · rw [heq]
    exact ⟨h.worklist, hnonNull, honce, h.balanced.drop⟩

/-- A pop takes the address on top. -/
theorem pop (h : TracedWorklist events wl) {x : Addr} {rest : List Addr}
    (hi : wl.items = x :: rest) :
    ∃ wl', gcWorklistPop wl = (wl', x) ∧ x ≠ 0 ∧ x ∈ pushed events ∧
      TracedWorklist (events ++ [.pop x]) wl' := by
  obtain ⟨wl', hpop, hwl, hitems, -, -⟩ := GcWorklist.pop_cons h.worklist hi
  have hbal := h.balanced
  rw [hi] at hbal
  have hx : x ∈ pushed events := hbal.subset (List.mem_append_right _ (List.mem_cons_self ..))
  refine ⟨wl', hpop, fun h0 => h.nonNull (h0 ▸ hx), hx, hwl, by simpa using h.nonNull,
    by simpa using h.once, ?_⟩
  rw [hitems]
  exact hbal.pop

end TracedWorklist

/-- What every step of a mark phase over the objects `keys` keeps. -/
structure MarkOnce (keys : List Addr) (ctx : MarkCtx) (events : List (TraceEvent Addr)) : Prop where
  nodes : ctx.nodes.map GcNode.obj = keys
  worklist : ctx.wl.Ok
  marked : ∀ a ∈ pushed events, ∃ n, lookup GcNode.obj a ctx.nodes = some n ∧ n.marked = true
  nonNull : 0 ∉ pushed events
  once : (pushed events).Nodup
  balanced : Balanced events ctx.wl.items

namespace MarkOnce

variable {keys : List Addr} {ctx ctx' : MarkCtx} {events : List (TraceEvent Addr)}

theorem traced (h : MarkOnce keys ctx events) : TracedWorklist events ctx.wl :=
  ⟨h.worklist, h.nonNull, h.once, h.balanced⟩

theorem init (hwl : ctx.wl.Ok) (hempty : ctx.wl.items = []) :
    MarkOnce (ctx.nodes.map GcNode.obj) ctx [] :=
  { TracedWorklist.init hwl hempty with
    nodes := rfl
    marked := fun _ ha => absurd ha List.not_mem_nil }

theorem other (h : MarkOnce keys ctx events) : MarkOnce keys ctx (events ++ [.other]) :=
  { h.traced.other with
    nodes := h.nodes
    marked := by simpa using h.marked }

/-- An object that is marked now has not been pushed before. -/
theorem mark (g : Graph) (h : MarkOnce keys ctx events) {v : Addr} {node : GcNode} (hv : v ≠ 0)
    (hl : lookup GcNode.obj v ctx.nodes = some node) (hm : node.marked = false) :
    MarkOnce keys (markObject g ctx v) (events ++ [.push v]) := by
  have hfresh : v ∉ pushed events := by
    intro hmem
    obtain ⟨n, hn, hmarked⟩ := h.marked v hmem
    rw [hl] at hn
    obtain rfl := Option.some.inj hn
    rw [hm] at hmarked
    exact nomatch hmarked
  have hkey : ∀ n : GcNode, ({ n with marked := true } : GcNode).obj = n.obj := fun _ => rfl
  have hmap : (update GcNode.obj v (fun n => { n with marked := true }) ctx.nodes).map GcNode.obj =
      keys := (map_update hkey ctx.nodes).trans h.nodes
  have hmarked : ∀ a ∈ pushed (events ++ [.push v]), ∃ n, lookup GcNode.obj a
      (update GcNode.obj v (fun n => { n with marked := true }) ctx.nodes) = some n ∧
        n.marked = true := by
    intro a ha
    simp only [pushed_append, pushed_push, List.mem_append, List.mem_singleton] at ha
    by_cases hav : a = v
    · subst hav
      exact ⟨_, lookup_update_self hkey hl, rfl⟩
    · rw [lookup_update_of_ne hav hkey]
      exact h.marked a (ha.resolve_right hav)
  have hnext := h.traced.push hv hfresh ctx.mem
  rcases markObject_cases g ctx v with ⟨-, hall⟩ | ⟨-, -, -, -, heq⟩
  · exact absurd ((hall node hv hl).symm.trans hm) (by decide)
  · rw [heq]
    exact { hnext with nodes := hmap, marked := hmarked }

/-- A pop takes the object on top. -/
theorem pop (h : MarkOnce keys ctx events) {x : Addr} {rest : List Addr}
    (hi : ctx.wl.items = x :: rest) :
    ∃ wl, gcWorklistPop ctx.wl = (wl, x) ∧ x ≠ 0 ∧
      MarkOnce keys { ctx with wl } (events ++ [.pop x]) := by
  obtain ⟨wl, hpop, h0, -, hnext⟩ := h.traced.pop hi
  exact ⟨wl, hpop, h0, { hnext with nodes := h.nodes, marked := by simpa using h.marked }⟩

theorem step (h : MarkOnce keys ctx events) {e : TraceEvent Addr} (hs : MarkStep g ctx e ctx') :
    MarkOnce keys ctx' (events ++ [e]) := by
  cases hs with
  | known hsame => exact hsame.symm ▸ h.other
  | mark hv hl hm => exact h.mark g hv hl hm
  | pop hne =>
    cases hi : ctx.wl.items with
    | nil => exact absurd (by rw [GcWorklist.pop_nil h.worklist hi]) hne
    | cons x rest =>
      obtain ⟨wl, hpop, -, hnext⟩ := h.pop hi
      rw [hpop]
      exact hnext
  | stray => exact { h.other with }

theorem run (h : MarkOnce keys ctx events) {events' : List (TraceEvent Addr)}
    (hrun : Run (MarkStep g) ctx events' ctx') : MarkOnce keys ctx' (events ++ events') := by
  induction hrun with
  | nil => rwa [List.append_nil]
  | snoc _ hst ih =>
    rw [← List.append_assoc]
    exact ih.step hst

theorem pushed_mem (h : MarkOnce keys ctx events) : ∀ a ∈ pushed events, a ∈ keys := by
  intro a ha
  obtain ⟨n, hn, -⟩ := h.marked a ha
  obtain ⟨hmem, rfl⟩ := mem_of_lookup hn
  exact h.nodes ▸ List.mem_map_of_mem hmem

theorem pushed_le (h : MarkOnce keys ctx events) : (pushed events).length ≤ keys.length :=
  (List.subperm_of_subset h.once h.pushed_mem).length_le

theorem onceEach (h : MarkOnce keys ctx events) : OnceEach keys.length events ctx.wl.items :=
  h.balanced.onceEach h.once h.pushed_le

/-- A round of the loop: the object on top is taken off and its slots are gone through. -/
theorem round (g : Graph) (h : MarkOnce keys ctx events) {x : Addr} {rest : List Addr}
    (hi : ctx.wl.items = x :: rest) (fuel : Nat) :
    ∃ ctx' more, Run (MarkStep g) ctx ([.pop x] ++ more) ctx' ∧
      markDrain g (fuel + 1) ctx = markDrain g fuel ctx' := by
  obtain ⟨wl, hpop, h0, -⟩ := h.pop hi
  have hstep : MarkStep g ctx (.pop x) { ctx with wl } := by
    have hpopped := @MarkStep.pop g ctx (by rw [hpop]; exact h0)
    rwa [hpop] at hpopped
  obtain ⟨more, hrun⟩ := markChildren_run (g := g) { ctx with wl } x
  exact ⟨_, more, (Run.single hstep).trans hrun, markDrain_cons hpop h0 fuel⟩

/-- With as many rounds as there are tracked objects that have not been traced, the loop ends by
    itself. -/
theorem drain (g : Graph) (fuel : Nat) (h : MarkOnce keys ctx events)
    (hfuel : keys.length ≤ (popped events).length + fuel) :
    (∃ events', Run (MarkStep g) ctx events' (markDrain g fuel ctx).1) ∧
      (markDrain g fuel ctx).2 = false ∧ (markDrain g fuel ctx).1.wl.items = [] := by
  obtain ⟨ctx', events', hrun, hi, heq⟩ := drain_ends (MarkStep g) (MarkOnce keys)
    (fun h hrun => h.run hrun) (fun h => h.balanced) (fun h => h.pushed_le)
    (fun fuel h hi => markDrain_nil h.worklist hi fuel) (fun fuel h hi => h.round g hi fuel)
    fuel h hfuel
  rw [heq]
  exact ⟨⟨events', hrun⟩, rfl, hi⟩

end MarkOnce

end

end Xgc
