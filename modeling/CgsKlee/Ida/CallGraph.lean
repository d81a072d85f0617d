import CgsKlee.Ida.Dependency
import CgsKlee.Lib.QueueSearch

/-!
# Reachability in the call graph

The call graph has one node for each function, with the edges of its calls; nodes are created when a function is first
asked for.  `isReachable` searches from one node for another through functions that have a body.  It marks a node when
it takes it from the queue, so that a node can wait and be expanded several times (`QueueSearch`); the search ends in
every graph and decides whether there is a path (`isReachable_iff`).
-/

namespace CgsKlee.Ida

inductive NodeType
  | internal
  | external
deriving DecidableEq, Repr

inductive EdgeType
  | direct
  | indirect
deriving DecidableEq, Repr

structure Edge where
  type : EdgeType
  inst : InstID
  src : FuncID
  dst : FuncID
deriving DecidableEq, Repr

structure Node where
  type : NodeType
  func : FuncID
  in_edges : List Edge
  out_edges : List Edge
deriving DecidableEq, Repr

/-- What the call graph reads of a function: its kind and its call instructions, with the called function if the call
is direct. -/
structure Function where
  id : FuncID
  isDeclaration : Bool
  empty : Bool
  isIntrinsic : Bool
  calls : List (InstID × Option FuncID)

def nodeTypeOf (m : List Function) (F : FuncID) : NodeType :=
  match m.find? (·.id = F) with
  | some f => if f.isDeclaration || f.empty then .external else .internal
  | none => .external

/-- `CallGraph`: its nodes, one for each function, in the order in which `_CG` is iterated.  A node is named by its
function. -/
structure CallGraph where
  _CG : List Node
  nodup : (_CG.map (·.func)).Nodup

namespace CallGraph

variable (m : List Function) (g : CallGraph)

def node? (F : FuncID) : Option Node := g._CG.find? (·.func = F)

/-- `CallGraph::getNode`: the node of a function, which is created if there is none. -/
def getNode (F : FuncID) : CallGraph × Node :=
  match h : g.node? F with
  | some N => (g, N)
  | none =>
    let N : Node := ⟨nodeTypeOf m F, F, [], []⟩
    (⟨N :: g._CG, by
      refine List.nodup_cons.2 ⟨fun hmem => ?_, g.nodup⟩
      obtain ⟨N', hN', hF⟩ := List.mem_map.1 hmem
      have hne := List.find?_eq_none.1 h N' hN'
      simp only [decide_eq_true_eq] at hne
      exact hne hF⟩, N)

def modify (F : FuncID) (f : Node → List Edge × List Edge) : CallGraph where
  _CG := g._CG.map fun N => if N.func = F then { N with in_edges := (f N).1, out_edges := (f N).2 } else N
  nodup := by
    have hmap : (g._CG.map fun N => if N.func = F then { N with in_edges := (f N).1, out_edges := (f N).2 } else N).map
        (·.func) = g._CG.map (·.func) := by
      rw [List.map_map]
      refine List.map_congr_left fun N _ => ?_
      simp only [Function.comp_apply]
      split <;> rfl
    rw [hmap]
    exact g.nodup

def addInEdge (cur other : FuncID) (inst : InstID) (type : EdgeType) : CallGraph :=
  g.modify cur fun N => (⟨type, inst, other, cur⟩ :: N.in_edges, N.out_edges)

def addOutEdge (cur other : FuncID) (inst : InstID) (type : EdgeType) : CallGraph :=
  g.modify cur fun N => (N.in_edges, ⟨type, inst, cur, other⟩ :: N.out_edges)

/-- The body of the loop of `CallGraph::runOnModule` over the calls of a function.  Indirect calls are left out, since
`INDIRECT_CALL` is 0. -/
def addCall (caller : FuncID) (g : CallGraph) (CI : InstID × Option FuncID) : CallGraph :=
  match CI.2 with
  | none => g
  | some f =>
    if ((m.find? (·.id = f)).map (·.isIntrinsic)).getD false then g
    else
      let (g, callee) := g.getNode m f
      (g.addInEdge callee.func caller CI.1 .direct).addOutEdge caller callee.func CI.1 .direct

def runOnModule : CallGraph :=
  m.foldl (fun g F =>
    if F.isDeclaration || F.empty || F.isIntrinsic then g
    else
      let (g, caller) := g.getNode m F.id
      F.calls.foldl (addCall m caller.func) g) ⟨[], List.nodup_nil⟩

def outEdges (N : FuncID) : List Edge := ((g.node? N).map (·.out_edges)).getD []

/-- The body of the loop of `CallGraph::isReachable` over the edges that leave a node. -/
def pushEdge (indirect : Bool) (traced_nodes : List FuncID) (s : CallGraph × List FuncID) (out_edge : Edge) :
    CallGraph × List FuncID :=
  if !indirect && out_edge.type = .indirect then s
  else
    let (g, N) := s.1.getNode m out_edge.dst
    if N.type = .internal ∧ N.func ∉ traced_nodes then (g, s.2 ++ [N.func]) else (g, s.2)

/-- The loop of `CallGraph::isReachable`, with some iterations left. -/
def trace (dst : FuncID) (indirect : Bool) : Nat → CallGraph → List FuncID → List FuncID → Option Bool
  | 0, _, _, _ => none
  | _ + 1, _, [], _ => some false
  | n + 1, g, N :: to_trace_nodes, traced_nodes =>
    let traced_nodes := traced_nodes.insert N
    if N = dst then some true
    else
      let (g, to_trace_nodes) := (g.outEdges N).foldl (pushEdge m indirect traced_nodes) (g, to_trace_nodes)
      trace dst indirect n g to_trace_nodes traced_nodes

def isReachable (n : Nat) (src dst : FuncID) (indirect : Bool) : Option Bool := trace m dst indirect n g [src] []

def typeOf (F : FuncID) : NodeType := ((g.node? F).map (·.type)).getD (nodeTypeOf m F)

def Calls (indirect : Bool) (a b : FuncID) : Prop :=
  ∃ e ∈ g.outEdges a, e.dst = b ∧ (e.type = .indirect → indirect = true) ∧ g.typeOf m b = .internal

/-- The nodes that an expansion of `N` looks at. -/
def callees (indirect : Bool) (N : FuncID) : List FuncID :=
  ((g.outEdges N).filter fun e => (indirect || e.type = .direct) && g.typeOf m e.dst = .internal).map (·.dst)

variable {m g} {indirect : Bool}

theorem mem_callees {a b : FuncID} : b ∈ g.callees m indirect a ↔ g.Calls m indirect a b := by
  unfold callees Calls
  simp only [List.mem_map, List.mem_filter, Bool.and_eq_true, Bool.or_eq_true, decide_eq_true_eq]
  constructor
  · rintro ⟨e, ⟨he, hallow, htype⟩, rfl⟩
    refine ⟨e, he, rfl, fun hind => hallow.resolve_right ?_, htype⟩
    rw [hind]
    exact EdgeType.noConfusion
  · rintro ⟨e, he, rfl, hallow, htype⟩
    refine ⟨e, ⟨he, ?_, htype⟩, rfl⟩
    cases hind : e.type with
    | direct => exact .inr rfl
    | indirect => exact .inl (hallow hind)

structure Same (m : List Function) (g g' : CallGraph) : Prop where
  outEdges : ∀ N, g'.outEdges N = g.outEdges N
  typeOf : ∀ N, g'.typeOf m N = g.typeOf m N

theorem Same.refl (g : CallGraph) : Same m g g := ⟨fun _ => rfl, fun _ => rfl⟩

theorem Same.trans {g₁ g₂ g₃ : CallGraph} (h : Same m g₁ g₂) (h' : Same m g₂ g₃) : Same m g₁ g₃ :=
  ⟨fun N => (h'.outEdges N).trans (h.outEdges N), fun N => (h'.typeOf N).trans (h.typeOf N)⟩

theorem Same.callees {g' : CallGraph} (h : Same m g g') (N : FuncID) :
    g'.callees m indirect N = g.callees m indirect N := by
  simp only [CallGraph.callees, h.outEdges, h.typeOf]

theorem getNode_spec (F : FuncID) :
    Same m g (g.getNode m F).1 ∧ (g.getNode m F).2.func = F ∧ (g.getNode m F).2.type = g.typeOf m F := by
  unfold getNode
  split
  · rename_i N hN
    have hF : N.func = F := by simpa using List.find?_some hN
    exact ⟨.refl g, hF, by rw [typeOf, hN]; rfl⟩
  · rename_i hN
    have hnode : ∀ (N : Node) hnodup N', N.func = F →
        (⟨N :: g._CG, hnodup⟩ : CallGraph).node? N' = if F = N' then some N else g.node? N' := by
      intro N hnodup N' hF
      unfold node?
      rw [List.find?_cons, hF]
      by_cases hN' : F = N' <;> simp [hN']
    have htype : nodeTypeOf m F = g.typeOf m F := by
      unfold typeOf
      rw [hN]
      rfl
    refine ⟨⟨fun N' => ?_, fun N' => ?_⟩, rfl, htype⟩
    · unfold outEdges
      rw [hnode _ _ _ rfl]
      split
      · rename_i hN'
        rw [← hN', hN]
        rfl
      · rfl
    · unfold typeOf
      rw [hnode _ _ _ rfl]
      split
      · rename_i hN'
        rw [← hN', hN]
        rfl
      · rfl

theorem foldl_pushEdge (indirect : Bool) (traced_nodes : List FuncID) (edges : List Edge) {g' : CallGraph} (h : Same m g g')
    (queue : List FuncID) :
    ∃ g'', edges.foldl (pushEdge m indirect traced_nodes) (g', queue) = (g'', queue ++
        (((edges.filter fun e => (indirect || e.type = .direct) && g.typeOf m e.dst = .internal).map (·.dst)).filter
          (· ∉ traced_nodes))) ∧ Same m g g'' := by
  induction edges generalizing g' queue with
  | nil => exact ⟨g', by simp, h⟩
  | cons e edges ih =>
    rw [List.foldl_cons]
    obtain ⟨hsame, hfunc, htype⟩ := getNode_spec (m := m) (g := g') e.dst
    by_cases hskip : (!indirect && e.type = .indirect) = true
    · -- an indirect edge that is not allowed
      have hno : (indirect || decide (e.type = .direct)) = false := by
        cases hd : e.type <;> simp_all
      obtain ⟨g'', heq, hs⟩ := ih h queue
      refine ⟨g'', ?_, hs⟩
      rw [pushEdge, if_pos hskip, heq, List.filter_cons_of_neg (by simp [hno])]
    · have hyes : (indirect || decide (e.type = .direct)) = true := by
        cases hd : e.type <;> simp_all
      obtain ⟨g'', heq, hs⟩ := ih (h.trans hsame) (if (g'.getNode m e.dst).2.type = .internal ∧
        (g'.getNode m e.dst).2.func ∉ traced_nodes then queue ++ [(g'.getNode m e.dst).2.func] else queue)
      refine ⟨g'', ?_, hs⟩
      have hpush : pushEdge m indirect traced_nodes (g', queue) e = ((g'.getNode m e.dst).1,
          if (g'.getNode m e.dst).2.type = .internal ∧ (g'.getNode m e.dst).2.func ∉ traced_nodes then
            queue ++ [(g'.getNode m e.dst).2.func] else queue) := by
        rw [pushEdge, if_neg hskip]
        dsimp only
        split <;> rfl
      rw [hpush, heq]
      rw [hfunc, htype, h.typeOf]
      by_cases hint : g.typeOf m e.dst = .internal <;> by_cases htr : e.dst ∈ traced_nodes <;>
        simp [hyes, hint, htr]

theorem trace_eq_search (dst : FuncID) (n : Nat) {g' : CallGraph} (h : Same m g g') (queue traced : List FuncID) :
    trace m dst indirect n g' queue traced = QueueSearch.search (g.callees m indirect) dst n queue traced := by
  induction n generalizing g' queue traced with
  | zero => rfl
  | succ n ih =>
    cases queue with
    | nil => rfl
    | cons N queue =>
      unfold trace QueueSearch.search
      dsimp only
      split
      · rfl
      · obtain ⟨g'', heq, hs⟩ := foldl_pushEdge indirect (traced.insert N) (g'.outEdges N) h queue
        rw [heq, h.outEdges]
        exact ih hs _ _

theorem node?_modify (F : FuncID) (f : Node → List Edge × List Edge) (N : FuncID) :
    (g.modify F f).node? N = (g.node? N).map fun N =>
      if N.func = F then { N with in_edges := (f N).1, out_edges := (f N).2 } else N := by
  unfold node? modify
  dsimp only
  rw [List.find?_map]
  have hp : ((fun N' : Node => decide (N'.func = N)) ∘ fun N' =>
      if N'.func = F then { N' with in_edges := (f N').1, out_edges := (f N').2 } else N') =
      fun N' => decide (N'.func = N) := by
    funext N'
    simp only [Function.comp_apply]
    split <;> rfl
  rw [hp]

theorem func_of_node? {F : FuncID} {N : Node} (h : g.node? F = some N) : N.func = F := by simpa using List.find?_some h

theorem typeOf_modify (F : FuncID) (f : Node → List Edge × List Edge) (N : FuncID) :
    (g.modify F f).typeOf m N = g.typeOf m N := by
  unfold typeOf
  rw [node?_modify]
  cases g.node? N with
  | none => rfl
  | some N' =>
    simp only [Option.map_some, Option.getD_some]
    split <;> rfl

theorem outEdges_addInEdge (cur other : FuncID) (inst : InstID) (type : EdgeType) (N : FuncID) :
    (g.addInEdge cur other inst type).outEdges N = g.outEdges N := by
  unfold outEdges addInEdge
  rw [node?_modify]
  cases g.node? N with
  | none => rfl
  | some N' =>
    simp only [Option.map_some, Option.getD_some]
    split <;> rfl

theorem mem_outEdges_addOutEdge {cur other : FuncID} {inst : InstID} {type : EdgeType} (h : (g.node? cur).isSome)
    {N : FuncID} {e : Edge} : e ∈ (g.addOutEdge cur other inst type).outEdges N ↔
      e ∈ g.outEdges N ∨ N = cur ∧ e = ⟨type, inst, cur, other⟩ := by
  unfold outEdges addOutEdge
  rw [node?_modify]
  cases hN : g.node? N with
  | none =>
    have hne : N ≠ cur := by
      rintro rfl
      simp [hN] at h
    simp [hne]
  | some N' =>
    have hfunc := func_of_node? hN
    by_cases hcur : N = cur
    · simp [hfunc, hcur, or_comm]
    · simp [hfunc, hcur]

theorem isSome_getNode {F N : FuncID} (h : (g.node? N).isSome ∨ N = F) : ((g.getNode m F).1.node? N).isSome := by
  unfold getNode
  split
  · rename_i N' hN'
    rcases h with h | rfl
    · exact h
    · simp [hN']
  · unfold node? at h ⊢
    rw [List.find?_cons]
    by_cases hF : F = N
    · simp [hF]
    · simp only [hF, decide_false]
      exact h.resolve_right fun hN => hF hN.symm

def CallEdge (m : List Function) (caller : FuncID) (CI : InstID × Option FuncID) (e : Edge) : Prop :=
  ∃ f, CI.2 = some f ∧ ((m.find? (·.id = f)).map (·.isIntrinsic)).getD false = false ∧
    e = ⟨.direct, CI.1, caller, f⟩

structure Extends (m : List Function) (g g' : CallGraph) (new : FuncID → Edge → Prop) : Prop where
  outEdges : ∀ N e, e ∈ g'.outEdges N ↔ e ∈ g.outEdges N ∨ new N e
  typeOf : ∀ N, g'.typeOf m N = g.typeOf m N
  nodes : ∀ N, (g.node? N).isSome → (g'.node? N).isSome

theorem addCall_extends {caller : FuncID} (h : (g.node? caller).isSome) (CI : InstID × Option FuncID) :
    Extends m g (addCall m caller g CI) fun N e => N = caller ∧ CallEdge m caller CI e := by
  unfold addCall CallEdge
  split
  · rename_i hnone
    exact ⟨fun N e => by simp [hnone], fun _ => rfl, fun _ => id⟩
  · rename_i f hf
    split
    · rename_i hintr
      exact ⟨fun N e => by simp [hf, hintr], fun _ => rfl, fun _ => id⟩
    · rename_i hintr
      obtain ⟨hsame, hfunc, -⟩ := getNode_spec (m := m) (g := g) f
      dsimp only
      rw [hfunc]
      have hcaller : (((g.getNode m f).1.addInEdge f caller CI.1 .direct).node? caller).isSome := by
        rw [addInEdge, node?_modify, Option.isSome_map]
        exact isSome_getNode (.inl h)
      refine ⟨fun N e => ?_, fun N => ?_, fun N hN => ?_⟩
      · rw [mem_outEdges_addOutEdge hcaller, outEdges_addInEdge, hsame.outEdges]
        simp [hf, hintr]
      · rw [addOutEdge, typeOf_modify, addInEdge, typeOf_modify, hsame.typeOf]
      · rw [addOutEdge, node?_modify, Option.isSome_map, addInEdge, node?_modify, Option.isSome_map]
        exact isSome_getNode (.inl hN)

theorem foldl_addCall_extends {caller : FuncID} (calls : List (InstID × Option FuncID))
    (h : (g.node? caller).isSome) :
    Extends m g (calls.foldl (addCall m caller) g) fun N e => N = caller ∧ ∃ CI ∈ calls, CallEdge m caller CI e := by
  induction calls generalizing g with
  | nil => exact ⟨by simp, fun _ => rfl, fun _ => id⟩
  | cons CI calls ih =>
    have hstep := addCall_extends (m := m) h CI
    have hrest := ih (hstep.nodes caller h)
    refine ⟨fun N e => ?_, fun N => (hrest.typeOf N).trans (hstep.typeOf N), fun N hN => hrest.nodes N (hstep.nodes N hN)⟩
    rw [List.foldl_cons, hrest.outEdges, hstep.outEdges, or_assoc, ← and_or_left]
    simp only [List.mem_cons, exists_eq_or_imp]

/-- A function calls another one directly: it has a body and is no intrinsic, and one of its calls is to the other. -/
def DirectCall (m : List Function) (F : Function) (e : Edge) : Prop :=
  (F.isDeclaration || F.empty || F.isIntrinsic) = false ∧ ∃ CI ∈ F.calls, CallEdge m F.id CI e

theorem mem_outEdges_runOnModule {N : FuncID} {e : Edge} :
    e ∈ (runOnModule m).outEdges N ↔ ∃ F ∈ m, F.id = N ∧ DirectCall m F e := by
  have hfold : ∀ (fs : List Function) (g : CallGraph), e ∈ (fs.foldl (fun g F =>
      if F.isDeclaration || F.empty || F.isIntrinsic then g
      else
        let (g, caller) := g.getNode m F.id
        F.calls.foldl (addCall m caller.func) g) g).outEdges N ↔
      e ∈ g.outEdges N ∨ ∃ F ∈ fs, F.id = N ∧ DirectCall m F e := by
    intro fs
    induction fs with
    | nil => simp
    | cons F fs ih =>
      intro g
      rw [List.foldl_cons, ih, List.exists_mem_cons_iff, ← or_assoc]
      refine or_congr_left ?_
      split
      · rename_i hskip
        simp [DirectCall, hskip]
      · rename_i hskip
        obtain ⟨hsame, hfunc, -⟩ := getNode_spec (m := m) (g := g) F.id
        dsimp only
        rw [hfunc, (foldl_addCall_extends F.calls (isSome_getNode (.inr rfl))).outEdges, hsame.outEdges]
        refine or_congr_right ⟨?_, ?_⟩
        · rintro ⟨rfl, hcall⟩
          exact ⟨rfl, by simpa using hskip, hcall⟩
        · rintro ⟨rfl, -, hcall⟩
          exact ⟨rfl, hcall⟩
  have hnil : (⟨[], List.nodup_nil⟩ : CallGraph).outEdges N = [] := rfl
  rw [runOnModule, hfold m, hnil]
  simp

variable (m g indirect)

/-- `isReachable` ends for every call graph and all nodes, and answers whether the nodes are the same or there is a path
of allowed edges through internal nodes, the last one included. -/
theorem isReachable_iff (src dst : FuncID) :
    ∃ result, (∃ n, ∀ k, n ≤ k → g.isReachable m k src dst indirect = some result) ∧
      (result = true ↔ src = dst ∨ Relation.TransGen (g.Calls m indirect) src dst) := by
  have hnext : ∀ a ∈ src :: g._CG.flatMap fun N => N.out_edges.map (·.dst), ∀ b ∈ g.callees m indirect a,
      b ∈ src :: g._CG.flatMap fun N => N.out_edges.map (·.dst) := by
    intro a _ b hb
    obtain ⟨e, he, rfl, -⟩ := mem_callees.1 hb
    unfold outEdges at he
    cases hN : g.node? a with
    | none => simp [hN] at he
    | some N =>
      simp only [hN, Option.map_some, Option.getD_some] at he
      exact List.mem_cons_of_mem _ (List.mem_flatMap.2 ⟨N, List.mem_of_find?_eq_some hN, List.mem_map.2 ⟨e, he, rfl⟩⟩)
  obtain ⟨result, ⟨n, hn⟩, hiff⟩ := QueueSearch.search_iff dst hnext List.mem_cons_self
  refine ⟨result, ⟨n, fun k hk => ?_⟩, ?_⟩
  · rw [isReachable, trace_eq_search dst k (.refl g)]
    exact hn k hk
  · rw [hiff, Relation.reflTransGen_iff_eq_or_transGen, eq_comm]
    have hrel : (fun a b => b ∈ g.callees m indirect a) = g.Calls m indirect := by
      funext a b
      exact propext mem_callees
    rw [hrel]

end CallGraph

end CgsKlee.Ida
