import CgsKlee.Ida.Dependency
import CgsKlee.Core.UncoveredPred

/-!
# The metadata that carries the dependencies from the analysis to the executor

`setInstMetaData` writes the matched dependencies to the instructions as metadata strings, and
`Executor::setModule`, in another program, reads them back.  A branch carries its id, the number of its variables
with stores, and for a variable `vid` the number of its stores and the id of each of them, under labels made of
`vid` and the index of the store.
-/

namespace CgsKlee.Ida

/-- The metadata kinds of the analysis. -/
inductive Label
  | bid
  | sid
  | vNum
  | vType (vid : Nat)
  | vStoreNum (vid : Nat)
  | vStore (vid sIdx : Nat)
deriving DecidableEq, Repr

def Label.name : Label → String
  | bid => "bid"
  | sid => "sid"
  | vNum => "v_num"
  | vType vid => "v_" ++ toString vid ++ "_t"
  | vStoreNum vid => "v_" ++ toString vid ++ "_s_num"
  | vStore vid sIdx => "s_" ++ toString vid ++ "_" ++ toString sIdx

/-- `std::stoi` of a string of digits. -/
def stoi (s : String) : Nat := Nat.ofDigitChars 10 s.toList 0

/-- The metadata of all instructions: the string under a label, if there is one. -/
abbrev Metadata := InstID → String → Option String

def Metadata.setMetadata (md : Metadata) (I : InstID) (label : Label) (value : Nat) : Metadata :=
  Function.update md I (Function.update (md I) label.name (some (toString value)))

/-- `stoi(cast<MDString>(I->getMetadata(label)->getOperand(0))->getString().str())`, if the label is there. -/
def Metadata.getMetadata (md : Metadata) (I : InstID) (label : Label) : Option Nat := (md I label.name).map stoi

private def Label.words : Label → List (List Char)
  | bid => [['b', 'i', 'd']]
  | sid => [['s', 'i', 'd']]
  | vNum => [['v'], ['n', 'u', 'm']]
  | vType vid => [['v'], Nat.toDigits 10 vid, ['t']]
  | vStoreNum vid => [['v'], Nat.toDigits 10 vid, ['s'], ['n', 'u', 'm']]
  | vStore vid sIdx => [['s'], Nat.toDigits 10 vid, Nat.toDigits 10 sIdx]

private theorem Label.name_eq (l : Label) : l.name.toList = ['_'].intercalate l.words := by
  cases l <;> simp [name, words, List.intercalate, List.intersperse]

private theorem Label.underscore_notMem (l : Label) : ∀ word ∈ l.words, '_' ∉ word := by
  cases l <;> simp [words, Nat.underscore_not_in_toDigits]

private theorem toDigits_injective {m n : Nat} (h : Nat.toDigits 10 m = Nat.toDigits 10 n) : m = n := by
  rw [← Nat.ofDigitChars_ten_toDigits (n := m), h, Nat.ofDigitChars_ten_toDigits]

theorem Label.name_injective : Function.Injective Label.name := by
  intro l l' h
  have hw : l.words = l'.words := by
    rw [← List.splitOn_intercalate '_' l.underscore_notMem (by cases l <;> simp [words]), ← name_eq, h, name_eq,
      List.splitOn_intercalate '_' l'.underscore_notMem (by cases l' <;> simp [words])]
  cases l <;> cases l' <;> simp [words] at hw ⊢
  · exact toDigits_injective hw
  · exact toDigits_injective hw
  · exact ⟨toDigits_injective hw.1, toDigits_injective hw.2⟩

@[simp] theorem stoi_repr (n : Nat) : stoi n.repr = n := by
  simp [stoi]

@[simp] theorem Metadata.getMetadata_setMetadata (md : Metadata) (I J : InstID) (l l' : Label) (n : Nat) :
    (md.setMetadata I l n).getMetadata J l' = if J = I ∧ l' = l then some n else md.getMetadata J l' := by
  unfold setMetadata getMetadata
  by_cases hI : J = I
  · subst hI
    by_cases hl : l' = l
    · subst hl
      simp
    · have hn : l'.name ≠ l.name := fun h => hl (Label.name_injective h)
      simp [hl, hn]
  · simp [hI]

def setBranchID (md : Metadata) (bvDep : BD2VDDep) : Metadata :=
  if bvDep.store_num = 0 then md else md.setMetadata bvDep.branch_dep.inst .bid bvDep.id

/-- `store_num`, the map `store_id` and the metadata, while the stores are numbered. -/
structure Numbering where
  store_num : Nat := 0
  store_id : InstID → Nat := fun _ => 0
  md : Metadata

def Numbering.setStoreID (n : Numbering) (SD : StoreDep) : Numbering :=
  { store_num := n.store_num + 1
    store_id := Function.update n.store_id SD.inst (n.store_num + 1)
    md := n.md.setMetadata SD.inst .sid (n.store_num + 1) }

/-- The type of a source variable; anything else fails the assertion "invalid variable type". -/
def variableType : Option DataDep → Option Nat
  | some (.globalVariable _) => some 1
  | some (.localVariable _) => some 2
  | some (.structPointerParam _) => some 3
  | some (.nonPointerParam _) => none
  | none => none

def setStores (store_id : InstID → Nat) (BI : InstID) (vid : Nat) (SDSet : List StoreDep) (md : Metadata) :
    Metadata :=
  SDSet.zipIdx.foldl (fun md (SD, s_idx) => md.setMetadata BI (.vStore vid s_idx) (store_id SD.inst)) md

/-- The body of the loop over the variables of the branch `BI`; the state is `var_num` and the metadata. -/
def setVariable (store_id : InstID → Nat) (BI : InstID) (acc : Nat × Metadata) (varDep : VD2SDDep) :
    Option (Nat × Metadata) :=
  if varDep.storeDeps = [] then some (acc.1 - 1, acc.2)
  else (variableType varDep.data_dep).map fun type =>
    let md := acc.2.setMetadata BI (.vType varDep.id) type
    let md := md.setMetadata BI (.vStoreNum varDep.id) varDep.storeDeps.length
    (acc.1, setStores store_id BI varDep.id varDep.storeDeps md)

def setBranch (store_id : InstID → Nat) (md : Metadata) (bvDep : BD2VDDep) : Option Metadata :=
  if bvDep.store_num = 0 then some md
  else (bvDep.varDeps.foldlM (setVariable store_id bvDep.branch_dep.inst) (bvDep.varDeps.length, md)).map
    fun (var_num, md) => md.setMetadata bvDep.branch_dep.inst .vNum var_num

/-- `setInstMetaData`, for the entries of `_SDMap` and of `_BD2VDMap` in the order of their iteration. -/
def setInstMetaData (SDs : List StoreDep) (bvDeps : List BD2VDDep) : Option Metadata :=
  let n := SDs.foldl Numbering.setStoreID { md := bvDeps.foldl setBranchID fun _ _ => none }
  bvDeps.foldlM (setBranch n.store_id) n.md

def loadStore (md : Metadata) (w : World) (I : InstID × InstKind) : World :=
  match I.2, md.getMetadata I.1 .sid with
  | .store, some sid =>
    { w with id2si := Function.update w.id2si sid (some I.1), si2id := Function.update w.si2id I.1 sid }
  | _, _ => w

/-- `set.insert` on a set that is a list. -/
def insertNew {α : Type} [DecidableEq α] (l : List α) (a : α) : List α := if a ∈ l then l else l ++ [a]

/-- Load the store with index `sidx` of the variable `vid`: a store that is no longer in the module is left out.
The state is the executor and the entry of the branch. -/
def loadVariableStore (md : Metadata) (F : FuncID) (I : InstID) (bid : BranchID) (vid : Nat) (acc : World × BDDep)
    (sidx : Nat) : Option (World × BDDep) :=
  (md.getMetadata I (.vStore vid sidx)).map fun sid =>
    let (w, bdDep) := acc
    match w.id2si sid with
    | none => (w, bdDep)
    | some SI =>
      ({ w with
          storetTobranches := Function.update w.storetTobranches sid (insertNew (w.storetTobranches sid) bid)
          funcStores := Function.update w.funcStores F (insertNew (w.funcStores F) SI) },
        { bdDep with stores := insertNew bdDep.stores sid })

def loadVariable (md : Metadata) (F : FuncID) (I : InstID) (bid : BranchID) (acc : World × BDDep) (vid : Nat) :
    Option (World × BDDep) :=
  match md.getMetadata I (.vStoreNum vid) with
  | none => some acc
  | some v_s_num =>
    ((List.range v_s_num).foldlM (loadVariableStore md F I bid vid) acc).map fun (w, bdDep) =>
      if 1 < bdDep.stores.length then
        ({ w with storesWithSameVar := fun sid =>
            if sid ∈ bdDep.stores then some bdDep.stores else w.storesWithSameVar sid }, bdDep)
      else (w, bdDep)

def loadDependency (md : Metadata) (F : FuncID) (I : InstID) (bid : BranchID) (bdDep : BDDep) (w : World) :
    Option World := do
  let w := { w with id2bi := Function.update w.id2bi bid (some I), bi2id := Function.update w.bi2id I (some bid) }
  let v_num ← md.getMetadata I .vNum
  let (w, bdDep) ← (List.range v_num).foldlM (loadVariable md F I bid) (w, bdDep)
  some { w with bdDep := Function.update w.bdDep bid (some bdDep) }

/-- The entry of a branch before its dependencies are loaded; none for a `br` that is not decided by an `icmp`. -/
def InstKind.entry : InstKind → Option BDDep
  | .br cond => cond.map fun pred => .ofBr pred []
  | .switch cases => some { type := .switch, stores := [], unCoveredValues := cases.foldl insertNew [] }
  | .store | .other => none

def loadBranch (md : Metadata) (F : FuncID) (w : World) (I : InstID × InstKind) : Option World :=
  match I.2.entry, md.getMetadata I.1 .bid with
  | some bdDep, some bid => loadDependency md F I.1 bid bdDep w
  | _, _ => some w

/-- The metadata loading of `Executor::setModule`: first all stores, then the branches, function by function. -/
def setModule (prog : List (FuncID × List (InstID × InstKind))) (md : Metadata) (w : World) : Option World :=
  prog.foldlM (fun w (F, insts) => insts.foldlM (loadBranch md F) w)
    ((prog.flatMap (·.2)).foldl (loadStore md) w)

end CgsKlee.Ida
