import CgsKlee.Core.GetElementPtr

/-!
# Aliases of globals

Before the globals are initialised every alias gets the address that its aliasee denotes.  `initializeGlobalAlias`
first resolves the aliases in all operands of a constant, and follows the operands of whatever it meets: also those of
a global variable, which are its initialiser, and those of a block address, one of which is no constant.  It succeeds
exactly if the operands below every alias come to an end: `initializeGlobalAliases_iff`.
-/

namespace CgsKlee

namespace GlobalAlias

/-- A constant over the globals of a module.  Of the constants that are no aliasees only the operands matter. -/
inductive Constant (α : Type)
  | int (value : APInt)
  | globalValue (name : α)
  | bitCast (operand : Constant α)
  | getElementPtr (elementType : LLVMType) (base : Constant α) (indices : List APInt)
  | blockAddress (function : α)
  | other (operands : List (Constant α))

/-- A global: a variable or a function with its address, or an alias.  The operands of a variable are its initialiser,
those of a function its personality, prefix and prologue. -/
inductive GlobalValue (α : Type)
  | globalObject (address : APInt) (operands : List (Constant α))
  | globalAlias (aliasee : Constant α)

structure Module (α : Type) where
  globals : α → GlobalValue α
  aliases : List α
  mem_aliases : ∀ name, name ∈ aliases ↔ ∃ aliasee, globals name = .globalAlias aliasee

abbrev Addresses (α : Type) := α → Option APInt

/-- How the initialisation of an alias fails: it has not ended within a number of nested calls, or an assertion. -/
inductive Failure
  | timeout
  | assertion
  deriving DecidableEq

variable {α : Type} (L : DataLayout) (M : Module α)

def emplace [DecidableEq α] (globalAddresses : Addresses α) (name : α) (address : APInt) : Addresses α :=
  fun other => if other = name ∧ globalAddresses name = none then some address else globalAddresses other

/-- `Executor::evalConstant` of an aliasee; it asserts that the globals in it have addresses. -/
def evalConstant (globalAddresses : Addresses α) : Constant α → Option APInt
  | .int value => some value
  | .globalValue name => globalAddresses name
  | .bitCast operand => evalConstant globalAddresses operand
  | .getElementPtr elementType base indices => do
    let op1 ← evalConstant globalAddresses base
    GetElementPtr.evalConstantExpr L elementType op1 indices
  | .blockAddress _ => none
  | .other _ => none

/-- `User::operand_values`; the basic block of a block address is no constant. -/
def operandValues : Constant α → List (Option (Constant α))
  | .int _ => []
  | .globalValue name =>
    match M.globals name with
    | .globalObject _ operands => operands.map some
    | .globalAlias aliasee => [some aliasee]
  | .bitCast operand => [some operand]
  | .getElementPtr _ base indices => some base :: indices.map fun index => some (.int index)
  | .blockAddress function => [some (.globalValue function), none]
  | .other operands => operands.map some

def addressOf (globalAddresses : Addresses α) : Constant α → Option APInt
  | .globalValue name => globalAddresses name
  | _ => none

def asAlias : Constant α → Option (α × Constant α)
  | .globalValue name =>
    match M.globals name with
    | .globalObject _ _ => none
    | .globalAlias aliasee => some (name, aliasee)
  | _ => none

def resolveAll (resolve : Constant α → Addresses α → Except Failure (Addresses α)) :
    List (Option (Constant α)) → Addresses α → Except Failure (Addresses α)
  | [], globalAddresses => .ok globalAddresses
  | none :: _, _ => .error .assertion
  | some op :: ops, globalAddresses => do
    let globalAddresses ← resolve op globalAddresses
    resolveAll resolve ops globalAddresses

/-- `Executor::initializeGlobalAlias`, with a bound on the nesting of its calls. -/
def initializeGlobalAlias [DecidableEq α] : Nat → Constant α → Addresses α → Except Failure (Addresses α)
  | 0, _, _ => .error .timeout
  | fuel + 1, c, globalAddresses =>
    match asAlias M c with
    | some (ga, aliasee) =>
      -- already resolved by previous invocation
      if (globalAddresses ga).isSome then .ok globalAddresses
      else
        match addressOf globalAddresses aliasee with
        | some address => .ok (emplace globalAddresses ga address)
        | none => do
          let globalAddresses ← resolveAll (initializeGlobalAlias fuel) (operandValues M c) globalAddresses
          -- aliasee is constant expression (or global alias)
          match evalConstant L globalAddresses aliasee with
          | some address => .ok (emplace globalAddresses ga address)
          | none => .error .assertion
    | none => resolveAll (initializeGlobalAlias fuel) (operandValues M c) globalAddresses

/-- What `allocateGlobalObjects` leaves: every variable and every function has its address. -/
def allocated : Addresses α := fun name =>
  match M.globals name with
  | .globalObject address _ => some address
  | .globalAlias _ => none

def initializeGlobalAliases [DecidableEq α] (fuel : Nat) : Except Failure (Addresses α) :=
  resolveAll (initializeGlobalAlias L M fuel) (M.aliases.map fun name => some (.globalValue name)) (allocated M)

/-- The address that a constant denotes. -/
inductive Denotes : Constant α → APInt → Prop
  | int {value : APInt} : Denotes (.int value) value
  | globalObject {name : α} {address : APInt} {operands : List (Constant α)} :
    M.globals name = .globalObject address operands → Denotes (.globalValue name) address
  | globalAlias {name : α} {aliasee : Constant α} {address : APInt} :
    M.globals name = .globalAlias aliasee → Denotes aliasee address → Denotes (.globalValue name) address
  | bitCast {operand : Constant α} {address : APInt} : Denotes operand address → Denotes (.bitCast operand) address
  | getElementPtr {elementType : LLVMType} {base : Constant α} {indices : List APInt} {op1 address : APInt} :
    Denotes base op1 → GetElementPtr.evalConstantExpr L elementType op1 indices = some address →
    Denotes (.getElementPtr elementType base indices) address

/-- An aliasee: a global value, or `bitcast` and `getelementptr` expressions over one. -/
def IsAliasee : Constant α → Prop
  | .globalValue _ => True
  | .bitCast operand => IsAliasee operand
  | .getElementPtr elementType base indices => IsAliasee base ∧ GetElementPtr.Verified elementType indices
  | _ => False

def Verified : Prop := ∀ name aliasee, M.globals name = .globalAlias aliasee → IsAliasee aliasee

/-- The operands below a constant come to an end, and all of them are constants.  Nothing is asked of what is below an
alias of a variable or a function. -/
inductive Settles : Constant α → Prop
  | direct {name object : α} {address : APInt} {operands : List (Constant α)} :
    M.globals name = .globalAlias (.globalValue object) → M.globals object = .globalObject address operands →
    Settles (.globalValue name)
  | operands {c : Constant α} : none ∉ operandValues M c → (∀ op, some op ∈ operandValues M c → Settles op) →
    Settles c

def Bound (globalAddresses : Addresses α) : Constant α → Prop
  | .globalValue name => ∃ address, globalAddresses name = some address
  | .bitCast operand => Bound globalAddresses operand
  | .getElementPtr _ base _ => Bound globalAddresses base
  | _ => True

/-- The addresses while aliases are resolved: what is bound is what the name denotes, and the aliases that are bound
settle. -/
structure Resolved (globalAddresses : Addresses α) : Prop where
  object : ∀ name address operands, M.globals name = .globalObject address operands → globalAddresses name = some address
  denotes : ∀ name address, globalAddresses name = some address → Denotes L M (.globalValue name) address
  settles : ∀ name aliasee address, M.globals name = .globalAlias aliasee → globalAddresses name = some address →
    Settles M (.globalValue name)

def Extends (s s' : Addresses α) : Prop := ∀ name address, s name = some address → s' name = some address

variable {L M} {s s' s'' : Addresses α} {c : Constant α}

theorem Extends.refl (s : Addresses α) : Extends s s := fun _ _ h => h

theorem Extends.trans (h : Extends s s') (h' : Extends s' s'') : Extends s s'' :=
  fun name address hs => h' name address (h name address hs)

theorem extends_emplace [DecidableEq α] (s : Addresses α) (name : α) (address : APInt) :
    Extends s (emplace s name address) := by
  intro other old h
  unfold emplace
  rw [if_neg]
  · exact h
  · rintro ⟨rfl, hnone⟩
    cases h.symm.trans hnone

theorem emplace_self [DecidableEq α] (s : Addresses α) (name : α) (address : APInt) :
    ∃ v, emplace s name address name = some v := by
  cases h : s name with
  | none => exact ⟨address, if_pos ⟨rfl, h⟩⟩
  | some old => exact ⟨old, extends_emplace s name address name old h⟩

variable {address : APInt} {name : α} {aliasee : Constant α}

theorem emplace_eq_some [DecidableEq α] {other : α} {v : APInt} (h : emplace s name address other = some v) :
    s other = some v ∨ other = name ∧ v = address := by
  unfold emplace at h
  split at h
  next hname => exact .inr ⟨hname.1, (Option.some.inj h).symm⟩
  next => exact .inl h

theorem Bound.extends (hext : Extends s s') : ∀ {c : Constant α}, Bound s c → Bound s' c
  | .int _, _ => trivial
  | .globalValue name, ⟨address, h⟩ => ⟨address, hext name address h⟩
  | .bitCast operand, h => Bound.extends (c := operand) hext h
  | .getElementPtr _ base _, h => Bound.extends (c := base) hext h
  | .blockAddress _, _ => trivial
  | .other _, _ => trivial

theorem Resolved.denotes_of_eval (hs : Resolved L M s) : ∀ {c : Constant α} {address : APInt},
    evalConstant L s c = some address → Denotes L M c address
  | .int _, _, h => by
    cases h
    exact .int
  | .globalValue name, address, h => hs.denotes name address h
  | .bitCast _, _, h => .bitCast (hs.denotes_of_eval h)
  | .getElementPtr _ _ _, _, h => by
    obtain ⟨op1, hbase, heval⟩ := Option.bind_eq_some_iff.mp h
    exact .getElementPtr (hs.denotes_of_eval hbase) heval

theorem eval_of_bound : ∀ {c : Constant α}, IsAliasee c → Bound s c →
    ∃ address, evalConstant L s c = some address
  | .globalValue _, _, h => h
  | .bitCast operand, ha, h => eval_of_bound (c := operand) ha h
  | .getElementPtr elementType base indices, ⟨ha, hverified⟩, h => by
    obtain ⟨op1, hbase⟩ := eval_of_bound (c := base) ha h
    obtain ⟨address, heval⟩ := GetElementPtr.evalConstantExpr_isSome (L := L) hverified op1
    exact ⟨address, by rw [evalConstant, hbase]; exact heval⟩

theorem Resolved.emplace [DecidableEq α] (hs : Resolved L M s)
    (hname : M.globals name = .globalAlias aliasee) (hdenotes : Denotes L M aliasee address)
    (hsettles : Settles M (.globalValue name)) : Resolved L M (emplace s name address) where
  object other v operands h := extends_emplace s name address other v (hs.object other v operands h)
  denotes other v h := by
    rcases emplace_eq_some h with h | ⟨rfl, rfl⟩
    · exact hs.denotes other v h
    · exact .globalAlias hname hdenotes
  settles other aliasee' v hother h := by
    rcases emplace_eq_some h with h | ⟨rfl, rfl⟩
    · exact hs.settles other aliasee' v hother h
    · exact hsettles

theorem addressOf_eq_some (h : addressOf s c = some address) :
    ∃ name, c = .globalValue name ∧ s name = some address := by
  unfold addressOf at h
  split at h
  · exact ⟨_, rfl, h⟩
  · cases h

theorem operandValues_of_alias (hname : M.globals name = .globalAlias aliasee) :
    operandValues M (.globalValue name) = [some aliasee] := by
  rw [operandValues, hname]

theorem Resolved.settles_alias {target : α} (hs : Resolved L M s)
    (hname : M.globals name = .globalAlias (.globalValue target)) (htarget : s target = some address) :
    Settles M (.globalValue name) := by
  cases hglobal : M.globals target with
  | globalObject address operands => exact .direct hname hglobal
  | globalAlias aliasee =>
    have hoperands := operandValues_of_alias hname
    refine .operands ?_ fun op hop => ?_
    · rw [hoperands]
      simp
    · rw [hoperands, List.mem_singleton] at hop
      exact Option.some.inj hop ▸ hs.settles target aliasee address hglobal htarget

theorem resolved_allocated : Resolved L M (allocated M) where
  object name address operands h := by rw [allocated, h]
  denotes name address h := by
    unfold allocated at h
    split at h
    next hname =>
      cases h
      exact .globalObject hname
    next => cases h
  settles name aliasee address hname h := by
    rw [allocated, hname] at h
    cases h

theorem bound_of_operands (hs : Resolved L M s) (halias : asAlias M c = none)
    (hops : ∀ op, some op ∈ operandValues M c → Bound s op) : Bound s c := by
  cases c with
  | int | blockAddress | other => trivial
  | globalValue name =>
    cases hname : M.globals name with
    | globalObject address operands => exact ⟨address, hs.object name address operands hname⟩
    | globalAlias aliasee =>
      rw [asAlias, hname] at halias
      cases halias
  | bitCast operand => exact hops operand List.mem_cons_self
  | getElementPtr elementType base indices => exact hops base List.mem_cons_self

theorem resolveAll_ok {resolve : Constant α → Addresses α → Except Failure (Addresses α)} {I : Addresses α → Prop}
    {P : Constant α → Prop} (hresolve : ∀ op s s', I s → resolve op s = .ok s' → P op ∧ I s') :
    ∀ {ops : List (Option (Constant α))} {s s' : Addresses α}, I s → resolveAll resolve ops s = .ok s' →
      none ∉ ops ∧ (∀ op, some op ∈ ops → P op) ∧ I s'
  | [], s, s', hs, h => by
    cases h
    exact ⟨List.not_mem_nil, fun _ hop => absurd hop List.not_mem_nil, hs⟩
  | none :: _, _, _, _, h => by cases h
  | some op :: ops, s, s', hs, h => by
    unfold resolveAll at h
    cases hop : resolve op s with
    | error failure =>
      rw [hop] at h
      cases h
    | ok s₁ =>
      rw [hop] at h
      obtain ⟨hP, hI⟩ := hresolve op s s₁ hs hop
      obtain ⟨hnone, hrest, hI'⟩ := resolveAll_ok hresolve hI h
      refine ⟨?_, ?_, hI'⟩
      · simpa using hnone
      · intro other hother
        rcases List.mem_cons.mp hother with heq | hmem
        · exact Option.some.inj heq ▸ hP
        · exact hrest other hmem

theorem asAlias_eq_some (h : asAlias M c = some (name, aliasee)) :
    c = .globalValue name ∧ M.globals name = .globalAlias aliasee := by
  unfold asAlias at h
  split at h
  · split at h
    next => cases h
    next hname =>
      cases h
      exact ⟨rfl, hname⟩
  · cases h

variable [DecidableEq α]

/-- Where the call succeeds the operands come to an end, by induction on the nesting of the calls. -/
theorem settles_of_ok : ∀ (fuel : Nat) {c : Constant α} {s s' : Addresses α}, Resolved L M s →
    initializeGlobalAlias L M fuel c s = .ok s' → Settles M c ∧ Resolved L M s' := by
  intro fuel
  induction fuel with
  | zero =>
    intro c s s' _ h
    cases h
  | succ fuel ih =>
    intro c s s' hs h
    have hoperands : ∀ {s₁}, resolveAll (initializeGlobalAlias L M fuel) (operandValues M c) s = .ok s₁ →
        Settles M c ∧ Resolved L M s₁ := by
      intro s₁ h₁
      obtain ⟨hnone, hops, hs₁⟩ := resolveAll_ok (P := Settles M) (fun op s s' hs hop => ih hs hop) hs h₁
      exact ⟨.operands hnone hops, hs₁⟩
    unfold initializeGlobalAlias at h
    cases halias : asAlias M c with
    | none =>
      rw [halias] at h
      exact hoperands h
    | some pair =>
      obtain ⟨name, aliasee⟩ := pair
      obtain ⟨rfl, hname⟩ := asAlias_eq_some halias
      rw [halias] at h
      dsimp only at h
      split at h
      next hbound =>
        cases h
        obtain ⟨address, haddress⟩ := Option.isSome_iff_exists.mp hbound
        exact ⟨hs.settles name aliasee address hname haddress, hs⟩
      next hunbound =>
        cases haddress : addressOf s aliasee with
        | some address =>
          rw [haddress] at h
          cases h
          obtain ⟨target, rfl, htarget⟩ := addressOf_eq_some haddress
          have hsettles := hs.settles_alias hname htarget
          exact ⟨hsettles, hs.emplace hname (hs.denotes target address htarget) hsettles⟩
        | none =>
          rw [haddress] at h
          cases hops : resolveAll (initializeGlobalAlias L M fuel) (operandValues M (.globalValue name)) s with
          | error failure =>
            rw [hops] at h
            cases h
          | ok s₁ =>
            obtain ⟨hsettles, hs₁⟩ := hoperands hops
            rw [hops] at h
            cases heval : evalConstant L s₁ aliasee with
            | none =>
              simp only [bind, Except.bind, heval] at h
              cases h
            | some address =>
              simp only [bind, Except.bind, heval] at h
              cases h
              exact ⟨hsettles, hs₁.emplace hname (hs₁.denotes_of_eval heval) hsettles⟩

/-- A call comes to an end, whatever the bound, from some bound on, and leaves the globals of its constant bound. -/
def Resolves (L : DataLayout) (M : Module α) (c : Constant α) : Prop :=
  ∀ s, Resolved L M s → ∃ least s', (∀ fuel ≥ least, initializeGlobalAlias L M fuel c s = .ok s') ∧
    Resolved L M s' ∧ Extends s s' ∧ Bound s' c

theorem resolves_all : ∀ {ops : List (Option (Constant α))}, none ∉ ops →
    (∀ op, some op ∈ ops → Resolves L M op) → ∀ s, Resolved L M s →
    ∃ least s', (∀ fuel ≥ least, resolveAll (initializeGlobalAlias L M fuel) ops s = .ok s') ∧
      Resolved L M s' ∧ Extends s s' ∧ ∀ op, some op ∈ ops → Bound s' op
  | [], _, _, s, hs => ⟨0, s, fun _ _ => rfl, hs, .refl s, fun _ hop => absurd hop List.not_mem_nil⟩
  | none :: _, hnone, _, _, _ => absurd List.mem_cons_self hnone
  | some op :: ops, hnone, hops, s, hs => by
    obtain ⟨least₁, s₁, hrun₁, hs₁, hext₁, hbound₁⟩ := hops op List.mem_cons_self s hs
    obtain ⟨least₂, s₂, hrun₂, hs₂, hext₂, hbound₂⟩ :=
      resolves_all (fun h => hnone (List.mem_cons_of_mem _ h)) (fun op hop => hops op (List.mem_cons_of_mem _ hop)) s₁ hs₁
    refine ⟨max least₁ least₂, s₂, fun fuel hfuel => ?_, hs₂, hext₁.trans hext₂, fun other hother => ?_⟩
    · unfold resolveAll
      rw [hrun₁ fuel (le_trans (le_max_left _ _) hfuel)]
      exact hrun₂ fuel (le_trans (le_max_right _ _) hfuel)
    · rcases List.mem_cons.mp hother with heq | hmem
      · exact Option.some.inj heq ▸ hbound₁.extends hext₂
      · exact hbound₂ other hmem

theorem resolves_alias (haliasee : IsAliasee aliasee)
    (hname : M.globals name = .globalAlias aliasee) (hsettles : Settles M (.globalValue name))
    (hops : ∀ s, Resolved L M s → addressOf s aliasee = none →
      ∃ least s', (∀ fuel ≥ least,
        resolveAll (initializeGlobalAlias L M fuel) (operandValues M (.globalValue name)) s = .ok s') ∧
      Resolved L M s' ∧ Extends s s' ∧ Bound s' aliasee) : Resolves L M (.globalValue name) := by
  intro s hs
  have halias : asAlias M (.globalValue name) = some (name, aliasee) := by rw [asAlias, hname]
  cases hbound : s name with
  | some address =>
    refine ⟨1, s, fun fuel hfuel => ?_, hs, .refl s, address, hbound⟩
    obtain ⟨n, rfl⟩ := Nat.exists_eq_add_of_le' hfuel
    rw [initializeGlobalAlias, halias]
    simp only [hbound, Option.isSome_some, if_true]
  | none =>
    cases haddress : addressOf s aliasee with
    | some address =>
      obtain ⟨target, rfl, htarget⟩ := addressOf_eq_some haddress
      refine ⟨1, emplace s name address, fun fuel hfuel => ?_,
        hs.emplace hname (hs.denotes target address htarget) hsettles, extends_emplace s name address,
        emplace_self s name address⟩
      obtain ⟨n, rfl⟩ := Nat.exists_eq_add_of_le' hfuel
      rw [initializeGlobalAlias, halias]
      simp only [hbound, Option.isSome_none, haddress, Bool.false_eq_true, if_false]
    | none =>
      obtain ⟨least, s₁, hrun, hs₁, hext, hbound₁⟩ := hops s hs haddress
      obtain ⟨address, heval⟩ := eval_of_bound (L := L) haliasee hbound₁
      refine ⟨least + 1, emplace s₁ name address, fun fuel hfuel => ?_,
        hs₁.emplace hname (hs₁.denotes_of_eval heval) hsettles, hext.trans (extends_emplace s₁ name address),
        emplace_self s₁ name address⟩
      obtain ⟨n, rfl⟩ := Nat.exists_eq_add_of_le' (Nat.le_trans (Nat.le_add_left 1 least) hfuel)
      rw [initializeGlobalAlias, halias]
      simp only [hbound, Option.isSome_none, haddress, Bool.false_eq_true, if_false]
      rw [hrun n (Nat.le_of_succ_le_succ hfuel)]
      simp only [bind, Except.bind, heval]

/-- Where the operands come to an end the call does, by induction on them. -/
theorem resolves_of_settles (hM : Verified M) (h : Settles M c) : Resolves L M c := by
  induction h with
  | @direct name target _ _ hname hobject =>
    have haliasee : IsAliasee (Constant.globalValue target) := trivial
    refine resolves_alias haliasee hname (.direct hname hobject) fun s hs haddress => ?_
    cases haddress.symm.trans (hs.object _ _ _ hobject)
  | @operands c hnone hops ih =>
    have hsettles : Settles M c := .operands hnone hops
    cases halias : asAlias M c with
    | none =>
      intro s hs
      obtain ⟨least, s', hrun, hs', hext, hbound⟩ := resolves_all hnone ih s hs
      refine ⟨least + 1, s', fun fuel hfuel => ?_, hs', hext, bound_of_operands hs' halias hbound⟩
      obtain ⟨n, rfl⟩ := Nat.exists_eq_add_of_le' (Nat.le_trans (Nat.le_add_left 1 least) hfuel)
      rw [initializeGlobalAlias, halias]
      exact hrun n (Nat.le_of_succ_le_succ hfuel)
    | some pair =>
      obtain ⟨name, aliasee⟩ := pair
      obtain ⟨rfl, hname⟩ := asAlias_eq_some halias
      refine resolves_alias (hM name aliasee hname) hname hsettles fun s hs _ => ?_
      obtain ⟨least, s', hrun, hs', hext, hbound⟩ := resolves_all hnone ih s hs
      refine ⟨least, s', hrun, hs', hext, hbound aliasee ?_⟩
      rw [operandValues_of_alias hname]
      exact List.mem_cons_self

/-- In a module that the verifier accepts the initialisation comes to an end without a failure, and every alias has the
address that it denotes, exactly if the operands below every alias come to an end. -/
theorem initializeGlobalAliases_iff (L : DataLayout) (M : Module α) (hM : Verified M) :
    (∃ fuel globalAddresses, initializeGlobalAliases L M fuel = .ok globalAddresses ∧
      ∀ name ∈ M.aliases, ∃ address, globalAddresses name = some address ∧ Denotes L M (.globalValue name) address) ↔
    ∀ name ∈ M.aliases, Settles M (.globalValue name) := by
  constructor
  · rintro ⟨fuel, s, hrun, -⟩ name hname
    obtain ⟨-, hsettles, -⟩ := resolveAll_ok (P := Settles M) (fun op s s' hs hop => settles_of_ok fuel hs hop)
      resolved_allocated hrun
    exact hsettles _ (List.mem_map_of_mem hname)
  · intro h
    have hnone : none ∉ M.aliases.map fun name => some (Constant.globalValue name) := by simp
    obtain ⟨least, s, hrun, hs, -, hbound⟩ := resolves_all (L := L) hnone (fun op hop => by
      obtain ⟨name, hname, heq⟩ := List.mem_map.mp hop
      exact Option.some.inj heq ▸ resolves_of_settles hM (h name hname)) (allocated M) resolved_allocated
    refine ⟨least, s, hrun least le_rfl, fun name hname => ?_⟩
    obtain ⟨address, haddress⟩ := hbound _ (List.mem_map_of_mem hname)
    exact ⟨address, haddress, hs.denotes name address haddress⟩

def aliasChain : Module (Option Bool) where
  globals
    | none => .globalObject (.ofNat 64 4096) [.int (.ofNat 32 7)]
    | some false => .globalAlias (.bitCast (.globalValue none))
    | some true => .globalAlias (.globalValue (some false))
  aliases := [some true, some false]
  mem_aliases name := by
    match name with
    | none => simp
    | some false => simp
    | some true => simp

theorem verified_aliasChain : Verified aliasChain := by
  intro name aliasee h
  match name with
  | none => cases h
  | some false =>
    cases h
    exact trivial
  | some true =>
    cases h
    exact trivial

theorem initializeGlobalAliases_iff_chain :
    (∃ fuel globalAddresses, initializeGlobalAliases x86_64 aliasChain fuel = .ok globalAddresses ∧
      ∀ name ∈ aliasChain.aliases, ∃ address, globalAddresses name = some address ∧
        Denotes x86_64 aliasChain (.globalValue name) address) ↔
    ∀ name ∈ aliasChain.aliases, Settles aliasChain (.globalValue name) :=
  initializeGlobalAliases_iff x86_64 aliasChain verified_aliasChain

theorem timeout_of_operand {fuel : Nat} {op : Constant α} {ops : List (Option (Constant α))}
    (halias : asAlias M c = none) (hops : operandValues M c = some op :: ops)
    (h : initializeGlobalAlias L M fuel op s = .error .timeout) :
    initializeGlobalAlias L M (fuel + 1) c s = .error .timeout := by
  rw [initializeGlobalAlias, halias]
  simp only [hops, resolveAll, bind, Except.bind, h]

/-- The first field of a node: a pointer to the next node. -/
def nodeType : LLVMType := .struct false [.pointer (.integer 8), .integer 32]

/-- A node whose initialiser points to the node itself, and an alias of its second field. -/
def selfReference : Module Bool where
  globals
    | false => .globalObject (.ofNat 64 4096) [.other [.bitCast (.globalValue false), .int (.ofNat 32 7)]]
    | true => .globalAlias (.getElementPtr nodeType (.globalValue false) [.ofNat 64 0, .ofNat 32 1])
  aliases := [true]
  mem_aliases name := by cases name <;> simp

theorem verified_selfReference : Verified selfReference := by
  intro name aliasee h
  cases name with
  | false => cases h
  | true =>
    cases h
    exact ⟨trivial, rfl, _, rfl, trivial⟩

theorem timeout_of_node (fuel : Nat) (s : Addresses Bool) :
    initializeGlobalAlias x86_64 selfReference fuel (.globalValue false) s = .error .timeout ∧
    initializeGlobalAlias x86_64 selfReference fuel (.other [.bitCast (.globalValue false), .int (.ofNat 32 7)]) s =
      .error .timeout ∧
    initializeGlobalAlias x86_64 selfReference fuel (.bitCast (.globalValue false)) s = .error .timeout := by
  induction fuel with
  | zero => exact ⟨rfl, rfl, rfl⟩
  | succ fuel ih =>
    obtain ⟨hnode, hinitializer, hpointer⟩ := ih
    exact ⟨timeout_of_operand rfl rfl hinitializer, timeout_of_operand rfl rfl hpointer, timeout_of_operand rfl rfl hnode⟩

theorem timeout_of_field (fuel : Nat) (s : Addresses Bool) :
    initializeGlobalAlias x86_64 selfReference fuel
      (.getElementPtr nodeType (.globalValue false) [.ofNat 64 0, .ofNat 32 1]) s = .error .timeout := by
  cases fuel with
  | zero => rfl
  | succ fuel => exact timeout_of_operand rfl rfl (timeout_of_node fuel s).1

theorem timeout_of_alias (fuel : Nat) : initializeGlobalAlias x86_64 selfReference fuel (.globalValue true)
    (allocated selfReference) = .error .timeout := by
  cases fuel with
  | zero => rfl
  | succ fuel =>
    have halias : asAlias selfReference (.globalValue true) =
        some (true, .getElementPtr nodeType (.globalValue false) [.ofNat 64 0, .ofNat 32 1]) := rfl
    have hops : operandValues selfReference (.globalValue true) =
        [some (.getElementPtr nodeType (.globalValue false) [.ofNat 64 0, .ofNat 32 1])] := rfl
    have hunbound : allocated selfReference true = none := rfl
    rw [initializeGlobalAlias, halias]
    simp only [hunbound, Option.isSome_none, Bool.false_eq_true, if_false, addressOf, hops, resolveAll,
      timeout_of_field, bind, Except.bind]

/-- The initialisation of the alias of a field of the node does not come to an end. -/
theorem selfReference_diverges : Verified selfReference ∧
    ∀ fuel, initializeGlobalAliases x86_64 selfReference fuel = .error .timeout := by
  refine ⟨verified_selfReference, fun fuel => ?_⟩
  have haliases : selfReference.aliases.map (fun name => some (Constant.globalValue name)) =
      [some (.globalValue true)] := rfl
  rw [initializeGlobalAliases, haliases, resolveAll, timeout_of_alias]
  rfl

end GlobalAlias

end CgsKlee
