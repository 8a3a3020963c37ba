import LockAudit.Proofs.CallGraph.Reach
import LockAudit.Proofs.Walk.Recording
import LockAudit.Proofs.Walk.Settlement
import Mathlib.Data.List.Chain

/-! # Activations and call chains

A step leaves the activations on the call stack as they are, ends the running one, or begins one of a
callee under a number that was never used before. So a number stands for one activation along a whole
walk, also after that activation has ended, and with the activation for the calls that led to it.
-/

namespace LockAudit.Walk

structure Activation where
  number : Nat
  inst : Name

def Frame.activation (f : Frame) : Activation :=
  { number := f.number, inst := f.inst }

def State.activations (s : State) : List Activation :=
  s.frames.map Frame.activation

def chainOf (as : List Activation) : List Name :=
  (as.map Activation.inst).reverse

theorem chain_eq (s : State) : s.chain = chainOf s.activations := by
  simp [State.chain, chainOf, State.activations, Frame.activation, Function.comp_def]

theorem activations_cons {s : State} {frame : Frame} {callers : List Frame}
    (hs : s.frames = frame :: callers) :
    s.activations = frame.activation :: callers.map Frame.activation := by
  rw [State.activations, hs, List.map_cons]

theorem activations_eq {s t : State} (h : t.frames = s.frames) : t.activations = s.activations :=
  congrArg (List.map Frame.activation) h

theorem active_eq (s : State) (id : Name) :
    s.active id = s.activations.countP fun a => a.inst.equals id := by
  rw [State.activations, List.countP_map]
  rfl

/-! ### What a step does to the activations -/

inductive Turns (g : CallGraph) (options : Options) (as : List Activation) (next : Nat) :
    List Activation → Nat → Prop
  | stays : Turns g options as next as next
  | ends : Turns g options as next as.tail next
  | begins {caller : Activation} {below : List Activation} (hs : as = caller :: below)
    (site callee : Name) (hc : callee ∈ g.callees caller.inst site)
    (hd : as.length < options.maxDepth)
    (hr : (as.countP fun a => a.inst.equals callee) < options.maxRevisits) :
    Turns g options as next ({ number := next, inst := callee } :: as) (next + 1)

def Logged (as : List Activation) (e : Event) : Prop :=
  ∃ a below, as = a :: below ∧ e.frame = Int.ofNat a.number ∧ e.inst = a.inst ∧ e.chain = chainOf as

structure Progresses (g : CallGraph) (options : Options) (s t : State) : Prop where
  turns : Turns g options s.activations s.nextFrame t.activations t.nextFrame
  logged : ∃ es, t.events = s.events ++ es ∧ ∀ e ∈ es, Logged s.activations e

variable {g : CallGraph} {options : Options}

theorem Progresses.of_eq {s t : State} (hf : t.frames = s.frames) (hn : t.nextFrame = s.nextFrame)
    (es : List Event) (he : t.events = s.events ++ es) (hes : ∀ e ∈ es, Logged s.activations e) :
    Progresses g options s t := by
  refine ⟨?_, es, he, hes⟩
  rw [activations_eq hf, hn]
  exact .stays

theorem Progresses.refl (s : State) : Progresses g options s s :=
  .of_eq rfl rfl [] (by simp) (by simp)

theorem logged_acquisition {s : State} {frame : Frame} {callers : List Frame}
    (hs : s.frames = frame :: callers) (guard : Name) (lock : Lock) (kind : GuardKind)
    (location : Location) : Logged s.activations (s.acquisition frame guard lock kind location) :=
  ⟨_, _, activations_cons hs, rfl, rfl, chain_eq s⟩

theorem logged_closing {s : State} {frame : Frame} {callers : List Frame}
    (hs : s.frames = frame :: callers) (location : Location) (l : List Held) :
    ∀ e ∈ l.filterMap (s.closing frame location), Logged s.activations e := by
  intro e he
  obtain ⟨h, _, he⟩ := List.mem_filterMap.mp he
  obtain ⟨a, _, rfl⟩ := Option.map_eq_some_iff.mp he
  exact ⟨_, _, activations_cons hs, rfl, rfl, chain_eq s⟩

theorem apply_progresses {s : State} (ht : Tracked s) (statement : Statement) :
    Progresses g options s (s.apply statement) := by
  cases hs : s.frames with
  | nil =>
    simp only [State.apply, hs]
    exact .refl s
  | cons frame callers =>
    cases statement with
    | acquire guard lock kind location raii =>
      simp only [State.apply, hs]
      refine .of_eq rfl rfl [s.acquisition frame guard lock kind location] rfl ?_
      intro e he
      obtain rfl := List.mem_singleton.mp he
      exact logged_acquisition hs guard lock kind location
    | release guard location =>
      simp only [State.apply, hs]
      split
      · rename_i h hh
        rw [release_eq (ht.index_lt (findHeld_mem hh))]
        exact .of_eq rfl rfl _ rfl (logged_closing hs location [h])
      · exact .of_eq hs.symm rfl [] (by simp) (by simp)
    | scopeExit locals location =>
      rw [apply_scopeExit ht hs]
      exact .of_eq rfl rfl _ rfl (logged_closing hs location _)

theorem leave_progresses {s : State} (ht : Tracked s) (value : Name) (location : Location) :
    Progresses g options s (s.leave value location) := by
  cases hs : s.frames with
  | nil =>
    simp only [State.leave, hs]
    exact .refl s
  | cons frame callers =>
    rw [leave_eq ht hs]
    refine ⟨?_, _, rfl, logged_closing hs location _⟩
    rw [activations_cons hs]
    exact .ends

theorem enter_progresses (s : State) (block : Target) : Progresses g options s (s.enter block) := by
  cases hs : s.frames with
  | nil =>
    simp only [State.enter, hs]
    exact .refl s
  | cons frame callers =>
    refine ⟨?_, [], ?_, by simp⟩
    · simp only [State.enter, hs, State.activations, List.map_cons]
      exact .stays
    · simp [State.enter, hs]

theorem jumps_progresses {s t : State} {targets : List Target} (h : t ∈ s.jumps options targets) :
    Progresses g options s t := by
  obtain ⟨block, _, rfl⟩ := List.mem_map.mp h
  exact enter_progresses s block

theorem push_progresses {s : State} {site callee : Name} (h : callee ∈ s.inlined g options site)
    (target : Option Target) (destination : Name) :
    Progresses g options s (s.push callee target destination) := by
  cases hs : s.frames with
  | nil => simp [State.inlined, hs] at h
  | cons frame callers =>
    simp only [State.inlined, hs, List.mem_filter, State.canInline] at h
    obtain ⟨hc, h⟩ := h
    split at h
    · cases h
    · simp only [Bool.and_eq_true, decide_eq_true_eq] at h
      have hacts : (s.push callee target destination).activations =
          { number := s.nextFrame, inst := callee } :: s.activations := by
        simp [State.activations, State.push, hs, Frame.activation]
      have hnext : (s.push callee target destination).nextFrame = s.nextFrame + 1 := by
        simp only [State.push, hs]
      refine ⟨?_, [], ?_, by simp⟩
      · rw [hacts, hnext]
        refine .begins (activations_cons hs) site callee hc ?_ ?_
        · simpa [State.activations, hs] using h.1.2
        · rw [← active_eq]
          exact h.2
      · simp [State.push, hs]

theorem markCall_degraded (g : CallGraph) (s : State) (site : Name) :
    ∃ degraded, s.markCall g site = { s with degraded } := by
  unfold State.markCall
  split
  · exact ⟨s.degraded, rfl⟩
  · split
    · exact ⟨true, rfl⟩
    · exact ⟨s.degraded, rfl⟩

theorem calls_progresses {s t : State} {c : Call} (h : t ∈ s.calls g options c) :
    Progresses g options s t := by
  simp only [State.calls] at h
  split at h
  · exact jumps_progresses h
  · obtain ⟨callee, hc, rfl⟩ := List.mem_map.mp h
    exact push_progresses hc c.target c.destination

/-- Whatever a step does, the events that it logs are those of the running activation. -/
theorem Step.progresses {s t : State} (h : Step g options s t) (ht : Tracked s) :
    Progresses g options s t := by
  cases h with
  | apply statement => exact apply_progresses ht statement
  | leave value location => exact leave_progresses ht value location
  | jump h => exact jumps_progresses h
  | mark site =>
    obtain ⟨degraded, hm⟩ := markCall_degraded g s site
    rw [hm]
    exact .of_eq rfl rfl [] (by simp) (by simp)
  | call h =>
    rename_i c
    obtain ⟨degraded, hm⟩ := markCall_degraded g s c.site
    rw [hm] at h
    -- being degraded makes no difference to the activations and the events
    have hp := calls_progresses h
    exact ⟨hp.turns, hp.logged⟩

/-! ### Bounds on the stack -/

structure Called (g : CallGraph) (options : Options) (root : Name) (as : List Activation) : Prop where
  root : ∀ a ∈ as.getLast?, a.inst = root
  depth : as.length ≤ options.maxDepth
  recursion : ∀ id, (as.countP fun a => a.inst.equals id) ≤ options.maxRevisits
  calls : as.IsChain fun callee caller => ∃ site, callee.inst ∈ g.callees caller.inst site

theorem called_start (root : Name) : Called g options root (State.start root).activations := by
  refine ⟨by simp [State.activations, State.start, Frame.activation], options.one_le_maxDepth, ?_,
    List.isChain_singleton _⟩
  intro id
  exact Nat.le_trans List.countP_le_length options.one_le_maxRevisits

/-- Calls stay within the bounds when an activation ends and when one begins. -/
theorem Turns.called {root : Name} {as as' : List Activation} {next next' : Nat}
    (h : Turns g options as next as' next') (ha : Called g options root as) :
    Called g options root as' := by
  cases h with
  | stays => exact ha
  | ends =>
    refine ⟨?_, ?_, ?_, ha.calls.tail⟩
    · intro a hlast
      refine ha.root a ?_
      cases as with
      | nil => exact hlast
      | cons b as =>
        cases as with
        | nil => cases hlast
        | cons c as => exact hlast
    · exact Nat.le_trans (List.tail_sublist as).length_le ha.depth
    · intro id
      exact Nat.le_trans (List.tail_sublist as).countP_le (ha.recursion id)
  | @begins caller below hs site callee hc hd hr =>
    subst hs
    refine ⟨?_, hd, ?_, .cons_cons ⟨site, hc⟩ ha.calls⟩
    · intro a hlast
      exact ha.root a hlast
    · intro id
      rw [List.countP_cons]
      dsimp only
      split
      · -- the callee is counted under this name as well as under its own
        rename_i heq
        have hsame := Name.same_iff.mp (Bool.and_eq_true_iff.mp heq).2
        have hcount := List.countP_congr fun a (_ : a ∈ caller :: below) =>
          Bool.eq_iff_iff.mp (Name.equals_congr (a := a.inst) rfl hsame)
        rw [← hcount]
        exact hr
      · exact ha.recursion id

/-! ### What a number stands for -/

/-- What the numbers of activations stand for: the activation with all that are below it on the stack. It is
right for the activations on the stack, and every event is one of the activation with its number. -/
structure Registered (g : CallGraph) (options : Options) (root : Name) (stack : Nat → List Activation)
    (as : List Activation) (next : Nat) (es : List Event) : Prop where
  called : Called g options root as
  current : ∀ a below, a :: below <:+ as → a.number < next ∧ stack a.number = a :: below
  logged : ∀ e ∈ es, ∃ n < next, e.frame = Int.ofNat n ∧ Logged (stack n) e ∧
    Called g options root (stack n)

namespace Registered

variable {root : Name} {stack : Nat → List Activation} {as as' : List Activation} {next next' : Nat}
  {es : List Event}

theorem append (h : Registered g options root stack as next es) {es' : List Event}
    (hes : ∀ e ∈ es', Logged as e) : Registered g options root stack as next (es ++ es') := by
  refine ⟨h.called, h.current, List.forall_mem_append.mpr ⟨h.logged, ?_⟩⟩
  intro e he
  obtain ⟨a, below, rfl, hframe, hlogged⟩ := hes e he
  obtain ⟨hlt, hstack⟩ := h.current a below (List.suffix_refl _)
  refine ⟨a.number, hlt, hframe, ?_⟩
  rw [hstack]
  exact ⟨⟨a, below, rfl, hframe, hlogged⟩, h.called⟩

/-- Where an activation begins, its number stands for the stack with it on top. -/
theorem turn (h : Registered g options root stack as next es)
    (ht : Turns g options as next as' next') : ∃ stack', Registered g options root stack' as' next' es := by
  have hcalled := ht.called h.called
  cases ht with
  | stays => exact ⟨stack, h⟩
  | ends =>
    refine ⟨stack, hcalled, ?_, h.logged⟩
    intro a below ha
    exact h.current a below (ha.trans (List.tail_suffix as))
  | begins hs site callee hc hd hr =>
    let top : Activation := { number := next, inst := callee }
    -- numbers in use are below `next`, so what they stand for does not change
    have hold : ∀ n < next, Function.update stack next (top :: as) n = stack n := fun n hn =>
      Function.update_of_ne (Nat.ne_of_lt hn) _ _
    refine ⟨Function.update stack next (top :: as), hcalled, ?_, ?_⟩
    · intro a below ha
      rcases List.suffix_cons_iff.mp ha with ha | ha
      · cases ha
        exact ⟨Nat.lt_succ_self next, Function.update_self next _ stack⟩
      · obtain ⟨hlt, hstack⟩ := h.current a below ha
        exact ⟨Nat.lt_succ_of_lt hlt, (hold _ hlt).trans hstack⟩
    · intro e he
      obtain ⟨n, hn, hframe, hlogged⟩ := h.logged e he
      refine ⟨n, Nat.lt_succ_of_lt hn, hframe, ?_⟩
      rw [hold n hn]
      exact hlogged

end Registered

theorem registered_start (root : Name) :
    Registered g options root (fun _ => (State.start root).activations) (State.start root).activations
      (State.start root).nextFrame (State.start root).events := by
  refine ⟨called_start root, ?_, by simp [State.start]⟩
  intro a below ha
  rcases List.suffix_cons_iff.mp ha with ha | ha
  · cases ha
    exact ⟨Nat.zero_lt_one, rfl⟩
  · cases List.suffix_nil.mp ha

theorem Reachable.registered {root : Name} {s : State} (h : Reachable g options root s) :
    ∃ stack, Registered g options root stack s.activations s.nextFrame s.events := by
  induction h with
  | refl => exact ⟨_, registered_start root⟩
  | tail hr hs ih =>
    obtain ⟨stack, hstack⟩ := ih
    obtain ⟨hturns, es, hevents, hes⟩ := hs.progresses (Reachable.tracked hr)
    rw [hevents]
    exact (hstack.append hes).turn hturns

/-! ### Call chains of events -/

/-- The chain is one of calls from the root to the instance, within the bounds. No name equals NaN. -/
structure CallChain (g : CallGraph) (options : Options) (root inst : Name) (chain : List Name) :
    Prop where
  first : chain.head? = some root
  last : chain.getLast? = some inst
  depth : chain.length ≤ options.maxDepth
  recursion : ∀ id, (chain.countP fun c => c.equals id) ≤ options.maxRevisits
  calls : chain.IsChain g.Calls
  reached : ∀ id ∈ chain, CallGraph.among id (g.reachableFrom [root]) = true

theorem reflTransGen_of_isChain {α : Type} {r : α → α → Prop} {a : α} {l : List α}
    (h : (a :: l).IsChain r) : ∀ x ∈ a :: l, Relation.ReflTransGen r a x := by
  have hpairwise := (h.imp fun _ _ => Relation.ReflTransGen.single).pairwise
  intro x hx
  rcases List.mem_cons.mp hx with rfl | hx
  · exact .refl
  · exact List.rel_of_pairwise_cons hpairwise hx

/-- The activations on the stack call each other, beginning with the root. -/
theorem Called.begins {instances : List Instance} {root : Name} {as : List Activation}
    (h : Called (.build instances) options root as) (hne : as ≠ []) :
    (chainOf as).head? = some root ∧ (chainOf as).IsChain (CallGraph.build instances).Calls := by
  constructor
  · have hlast : as.getLast? = some (as.getLast hne) := List.getLast?_eq_some_getLast hne
    rw [chainOf, List.head?_reverse, List.getLast?_map, hlast, Option.map_some, h.root _ hlast]
  · rw [chainOf, List.isChain_reverse, List.isChain_map]
    refine h.calls.imp ?_
    rintro callee caller ⟨site, hc⟩
    exact CallGraph.calls_of_mem_callees hc

/-- The chain of an event is one of calls from the root, within the bounds. -/
theorem Called.callChain {instances : List Instance} {root : Name} {as : List Activation} {e : Event}
    (h : Called (.build instances) options root as)
    (hroot : (CallGraph.build instances).contains root = true) (he : Logged as e) :
    CallChain (.build instances) options root e.inst e.chain := by
  obtain ⟨a, below, rfl, _, hinst, hchain⟩ := he
  rw [hchain, hinst]
  obtain ⟨hfirst, hcalls⟩ := h.begins (List.cons_ne_nil a below)
  refine ⟨hfirst, ?_, ?_, ?_, hcalls, ?_⟩
  · simp [chainOf]
  · simpa [chainOf] using h.depth
  · intro id
    rw [chainOf, List.countP_reverse, List.countP_map]
    exact h.recursion id
  · intro id hid
    obtain ⟨rest, hrest⟩ := List.head?_eq_some_iff.mp hfirst
    rw [hrest] at hcalls hid
    exact CallGraph.among_reachableFrom (fun _ _ => CallGraph.contains_of_calls) hroot
      (reflTransGen_of_isChain hcalls id hid)

theorem contains_of_explore {fuel : Nat} {root : Name} {e : Exploration}
    (h : explore g options fuel root = .ok e) : g.contains root = true := by
  unfold explore at h
  split at h
  · cases h
  · rename_i i hi
    rw [CallGraph.contains, hi]
    rfl

/-- Every event of a path that is enumerated from a root stands at the end of a chain of calls from that root,
within the bounds, and the number of its activation tells which instance and which chain that is. -/
theorem event_chains {instances : List Instance} {fuel : Nat} {root : Name} {paths : List LockPath}
    (h : pathsFrom (.build instances) options fuel root = .ok paths) {p : LockPath} (hp : p ∈ paths) :
    p.root = root ∧
    (∀ e ∈ p.events, CallChain (.build instances) options root e.inst e.chain) ∧
    ∀ e ∈ p.events, ∀ f ∈ p.events, e.frame = f.frame → e.inst = f.inst ∧ e.chain = f.chain := by
  obtain ⟨exploration, hx, rfl⟩ := except_map_eq_ok h
  obtain ⟨hroot, s, hs, hevents, _⟩ := explore_recorded hx p (LockPath.mem_sorted.mp hp)
  obtain ⟨stack, hstack⟩ := hs.reachable.registered
  rw [hevents]
  refine ⟨hroot, ?_, ?_⟩
  · intro e he
    obtain ⟨n, _, _, hlogged, hcalled⟩ := hstack.logged e he
    exact hcalled.callChain (contains_of_explore hx) hlogged
  · intro e he f hf hframe
    obtain ⟨n, _, hen, ⟨a, below, ha, _, heinst, hechain⟩, _⟩ := hstack.logged e he
    obtain ⟨m, _, hfm, ⟨b, below', hb, _, hfinst, hfchain⟩, _⟩ := hstack.logged f hf
    have hnm : n = m := Int.ofNat.inj (hen.symm.trans (hframe.trans hfm))
    subst hnm
    obtain ⟨rfl, _⟩ := List.cons.inj (ha.symm.trans hb)
    exact ⟨heinst.trans hfinst.symm, hechain.trans hfchain.symm⟩

def callingItself : List Instance :=
  [{ id := .str "main", defPath := .str "main", typeArgs := [], signature := .str "", method := .null
     body := some { blocks := [
       { statements := [
           .acquire (.str "g") { site := .static, name := .str "A" } .mutex .unknown (.bool true)]
         terminator := .call {
           site := .str "s", callee := .str "main", signature := .null, method := .null,
           target := some (.int 1), destination := .null, location := .unknown } },
       { statements := [], terminator := .ret .null .unknown }] } }]

/-- The two activations of an instance that calls itself have a chain each. -/
theorem event_chains_callingItself :
    ∃ paths p, pathsFrom (.build callingItself) {} 9 (.str "main") = .ok paths ∧ p ∈ paths ∧
      p.events.map (fun e => (e.frame, e.chain.length)) = [(0, 1), (1, 2), (1, 2), (0, 1)] ∧
      (∀ e ∈ p.events, CallChain (.build callingItself) {} (.str "main") e.inst e.chain) ∧
      ∀ e ∈ p.events, ∀ f ∈ p.events, e.frame = f.frame → e.inst = f.inst ∧ e.chain = f.chain := by
  have h : (pathsFrom (.build callingItself) {} 9 (.str "main")).map
      (fun paths => paths.map fun p => p.events.map fun e => (e.frame, e.chain.length)) =
        .ok [[(0, 1), (1, 2), (1, 2), (0, 1)]] := by
    decide +kernel
  obtain ⟨paths, hpaths, h⟩ := except_map_eq_ok h
  obtain ⟨p, hp, he⟩ := List.map_eq_singleton_iff.mp h
  have hm : p ∈ paths := by simp [hp]
  exact ⟨paths, p, hpaths, hm, he, (event_chains hpaths hm).2⟩

end LockAudit.Walk
