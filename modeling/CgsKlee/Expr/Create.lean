import CgsKlee.Expr.Syntax

/-!
# Smart constructors

`X::create` folds constants and rewrites before it allocates a node.  A failed assertion is `none`.  The constructors
that call each other are ordered by what makes them end: with a constant on one side, sums, differences and equations
go down in the other operand; without one, sums and differences have fewer nodes at each step; an extract goes down in
what it extracts from, also when it is put together again with another extract.
-/

namespace CgsKlee

namespace Expr

/-- `ConstantExpr::alloc(b, Expr::Bool)`. -/
def ofBool (b : Bool) : Expr := .constant (.ofBool b)

/-- `ConstantExpr::alloc(n, w)`. -/
def ofNat (w n : Nat) : Expr := .constant (.ofNat w n)

end Expr

namespace ConstantExpr

def isZero (c : APInt) : Bool := c.toNat = 0

def isOne (c : APInt) : Bool := c.toNat = 1

def isTrue (c : APInt) : Bool := c.width = 1 ∧ c.toNat ≠ 0

def isFalse (c : APInt) : Bool := c.width = 1 ∧ c.toNat = 0

def isAllOnes (c : APInt) : Bool := c.value = BitVec.allOnes c.width

end ConstantExpr

open ConstantExpr

/-- `BCREATE_R` and `CMPCREATE_T`: two constants are folded, one constant goes to `partialR` or `partialL`. -/
def createR (fold : APInt → APInt → APInt) (partialL : Expr → APInt → Option Expr)
    (partialR : APInt → Expr → Option Expr) (create : Expr → Expr → Option Expr) (l r : Expr) : Option Expr :=
  -- assert: type mismatch
  if l.width = r.width then
    match l, r with
    | .constant cl, .constant cr => some (.constant (fold cl cr))
    | .constant cl, r => partialR cl r
    | l, .constant cr => partialL l cr
    | l, r => create l r
  else none

/-- `BCREATE` and `CMPCREATE`: two constants are folded. -/
def createB (fold : APInt → APInt → APInt) (create : Expr → Expr → Option Expr) (l r : Expr) : Option Expr :=
  if l.width = r.width then
    match l, r with
    | .constant cl, .constant cr => some (.constant (fold cl cr))
    | l, r => create l r
  else none

def AndExpr.createPartial (l : Expr) (cr : APInt) : Option Expr :=
  if isAllOnes cr then some l
  else if isZero cr then some (.constant cr)
  else some (.binary .and l (.constant cr))

def AndExpr.create : Expr → Expr → Option Expr :=
  createR (APInt.map₂ BinaryKind.and.apply) createPartial (fun cl r => createPartial r cl)
    fun l r => some (.binary .and l r)

def OrExpr.createPartial (l : Expr) (cr : APInt) : Option Expr :=
  if isAllOnes cr then some (.constant cr)
  else if isZero cr then some l
  else some (.binary .or l (.constant cr))

def OrExpr.create : Expr → Expr → Option Expr :=
  createR (APInt.map₂ BinaryKind.or.apply) createPartial (fun cl r => createPartial r cl)
    fun l r => some (.binary .or l r)

def EqExpr.plain (l r : Expr) : Option Expr :=
  if l = r then some (.ofBool true) else some (.cmp .eq l r)

/-- `EqExpr::create` of an expression and a constant, where `partially` is what `EqExpr_createPartial` gives. -/
def EqExpr.withConstant (e : Expr) (c : APInt) (partially : Option Expr) : Option Expr :=
  if e.width = c.width then
    match e with
    | .constant v => some (.constant (APInt.rel₂ CmpKind.eq.apply v c))
    | _ => partially
  else none

/-- The loop of `TryConstArrayOpt` from the position `i` on: `res` and the number of matches so far.  `mayBe` compares
the index with a position. -/
def EqExpr.matchPositions (cl : APInt) (mayBe : Nat → Option Expr) :
    List APInt → Nat → Nat → Expr → Option (Option Expr)
  | [], _, _, res => some (some res)
  | value :: values, i, numMatches, res =>
    if cl = value then
      -- arbitrary maximum on the size of disjunction
      if numMatches + 1 > 100 then some none
      else do
        let index ← mayBe i
        let res ← OrExpr.create res index
        matchPositions cl mayBe values (i + 1) (numMatches + 1) res
    else matchPositions cl mayBe values (i + 1) numMatches res

section ConstArrayOpt

variable (constArrayOpt : Bool)

def EqExpr.createPartialR (cl : APInt) (r : Expr) : Option Expr :=
  if cl.width = 1 then
    if isTrue cl then some r
    else
      -- 0 == ...
      match r with
      | .cmp .eq (.constant c) right =>
        -- eliminate double negation: 0 == (0 == A) => A
        if c.width = 1 ∧ isFalse c then some right
        else EqExpr.plain (.constant cl) (.cmp .eq (.constant c) right)
      | .binary .or left right => do
        -- transform not(or(a,b)) to and(not a, not b)
        let notLeft ← EqExpr.withConstant left (.ofNat left.width 0) (createPartialR (.ofNat left.width 0) left)
        let notRight ← EqExpr.withConstant right (.ofNat right.width 0) (createPartialR (.ofNat right.width 0) right)
        AndExpr.create notLeft notRight
      | r => EqExpr.plain (.constant cl) r
  else
    match r with
    | .cast .sext src _ =>
      let trunc := cl.zextOrTrunc src.width
      -- make sure it is possible to sext to this value from any value
      if cl = trunc.sextOrTrunc cl.width then EqExpr.withConstant src trunc (createPartialR trunc src)
      else some (.ofBool false)
    | .cast .zext src _ =>
      let trunc := cl.zextOrTrunc src.width
      if cl = trunc.zextOrTrunc cl.width then EqExpr.withConstant src trunc (createPartialR trunc src)
      else some (.ofBool false)
    | .binary .add (.constant c) right =>
      -- c0 = c1 + b => c0 - c1 = b
      if cl.width = c.width then createPartialR (APInt.map₂ BinaryKind.sub.apply cl c) right else none
    | .binary .sub (.constant c) right =>
      -- c0 = c1 - b => c1 - c0 = b
      if c.width = cl.width then createPartialR (APInt.map₂ BinaryKind.sub.apply c cl) right else none
    | .read root head index =>
      if constArrayOpt then
        -- TryConstArrayOpt
        if root.isSymbolicArray ∨ head ≠ .nil then EqExpr.plain (.constant cl) (.read root head index)
        else do
          let mayBe := fun i =>
            EqExpr.withConstant index (.ofNat index.width i) (createPartialR (.ofNat index.width i) index)
          let values := root.constantValues.map fun v => (⟨root.range, v⟩ : APInt)
          match ← EqExpr.matchPositions cl mayBe values 0 0 (.ofBool false) with
          | some res => some res
          | none => EqExpr.plain (.constant cl) (.read root head index)
      else EqExpr.plain (.constant cl) (.read root head index)
    | r => EqExpr.plain (.constant cl) r
termination_by r.nodes
decreasing_by all_goals (simp only [Expr.nodes]; omega)

def EqExpr.create : Expr → Expr → Option Expr :=
  createR (APInt.rel₂ CmpKind.eq.apply) (fun l cr => createPartialR constArrayOpt cr l)
    (createPartialR constArrayOpt) plain

def Expr.createIsZero (e : Expr) : Option Expr := EqExpr.create constArrayOpt e (.ofNat e.width 0)

def XorExpr.createPartialR (cl : APInt) (r : Expr) : Option Expr :=
  if isZero cl then some r
  else if cl.width = 1 then EqExpr.createPartialR constArrayOpt (.ofBool false) r
  else some (.binary .xor (.constant cl) r)

def XorExpr.create : Expr → Expr → Option Expr :=
  createR (APInt.map₂ BinaryKind.xor.apply) (fun l cr => createPartialR constArrayOpt cr l)
    (createPartialR constArrayOpt) fun l r => some (.binary .xor l r)

/-- `AddExpr::create` and `SubExpr::create` with a constant on the left, where `partially` is what the partial function
gives. -/
def withConstantL (kind : BinaryKind) (c : APInt) (r : Expr) (partially : Option Expr) : Option Expr :=
  if c.width = r.width then
    match r with
    | .constant v => some (.constant (APInt.map₂ kind.apply c v))
    | _ => partially
  else none

def foldConstants (kind : BinaryKind) (a b : APInt) : Option APInt :=
  if a.width = b.width then some (APInt.map₂ kind.apply a b) else none

mutual

def AddExpr.createPartialR (cl : APInt) (r : Expr) : Option Expr :=
  if cl.width = 1 then XorExpr.createPartialR constArrayOpt cl r
  else if isZero cl then some r
  else
    match r with
    | .binary .add (.constant b) c => do
      -- A + (B+c) == (A+B) + c
      let ab ← foldConstants .add cl b
      withConstantL .add ab c (AddExpr.createPartialR ab c)
    | .binary .sub (.constant b) c => do
      -- A + (B-c) == (A+B) - c
      let ab ← foldConstants .add cl b
      withConstantL .sub ab c (SubExpr.createPartialR ab c)
    | r => some (.binary .add (.constant cl) r)
termination_by r.nodes
decreasing_by all_goals (simp only [Expr.nodes]; omega)

def SubExpr.createPartialR (cl : APInt) (r : Expr) : Option Expr :=
  if cl.width = 1 then XorExpr.createPartialR constArrayOpt cl r
  else
    match r with
    | .binary .add (.constant b) c => do
      -- A - (B+c) == (A-B) - c
      let ab ← foldConstants .sub cl b
      withConstantL .sub ab c (SubExpr.createPartialR ab c)
    | .binary .sub (.constant b) c => do
      -- A - (B-c) == (A-B) + c
      let ab ← foldConstants .sub cl b
      withConstantL .add ab c (AddExpr.createPartialR ab c)
    | r => some (.binary .sub (.constant cl) r)
termination_by r.nodes
decreasing_by all_goals (simp only [Expr.nodes]; omega)

end

def SubExpr.createPartial (l : Expr) (cr : APInt) : Option Expr :=
  AddExpr.createPartialR constArrayOpt (APInt.map₂ BinaryKind.sub.apply (.ofNat cr.width 0) cr) l

def AddExpr.createL (c : APInt) (r : Expr) : Option Expr :=
  withConstantL .add c r (AddExpr.createPartialR constArrayOpt c r)

def SubExpr.createL (c : APInt) (r : Expr) : Option Expr :=
  withConstantL .sub c r (SubExpr.createPartialR constArrayOpt c r)

def SubExpr.createConstantR (l : Expr) (c : APInt) : Option Expr :=
  if l.width = c.width then
    match l with
    | .constant v => some (.constant (APInt.map₂ BinaryKind.sub.apply v c))
    | _ => SubExpr.createPartial constArrayOpt l c
  else none

mutual

def AddExpr.create (l r : Expr) : Option Expr :=
  if l.width = r.width then
    match l, r with
    | .constant cl, .constant cr => some (.constant (APInt.map₂ BinaryKind.add.apply cl cr))
    | .constant cl, r => AddExpr.createPartialR constArrayOpt cl r
    | l, .constant cr => AddExpr.createPartialR constArrayOpt cr l
    | l, r =>
      -- AddExpr_create
      if l.width = 1 then some (.binary .xor l r)
      else
        match l, r with
        | .binary .add (.constant k) a, r => do
          -- (k+a)+b = k+(a+b)
          let ab ← AddExpr.create a r
          AddExpr.createL constArrayOpt k ab
        | .binary .sub (.constant k) a, r => do
          -- (k-a)+b = k+(b-a)
          let ba ← SubExpr.create r a
          AddExpr.createL constArrayOpt k ba
        | l, .binary .add (.constant k) b => do
          -- a + (k+b) = k+(a+b)
          let ab ← AddExpr.create l b
          AddExpr.createL constArrayOpt k ab
        | l, .binary .sub (.constant k) b => do
          -- a + (k-b) = k+(a-b)
          let ab ← SubExpr.create l b
          AddExpr.createL constArrayOpt k ab
        | l, r => some (.binary .add l r)
  else none
termination_by l.nodes + r.nodes
decreasing_by all_goals (simp only [Expr.nodes]; omega)

def SubExpr.create (l r : Expr) : Option Expr :=
  if l.width = r.width then
    match l, r with
    | .constant cl, .constant cr => some (.constant (APInt.map₂ BinaryKind.sub.apply cl cr))
    | .constant cl, r => SubExpr.createPartialR constArrayOpt cl r
    | l, .constant cr => SubExpr.createPartial constArrayOpt l cr
    | l, r =>
      -- SubExpr_create
      if l.width = 1 then some (.binary .xor l r)
      else if l = r then some (.ofNat l.width 0)
      else
        match l, r with
        | .binary .add (.constant k) a, r => do
          -- (k+a)-b = k+(a-b)
          let ab ← SubExpr.create a r
          AddExpr.createL constArrayOpt k ab
        | .binary .sub (.constant k) a, r => do
          -- (k-a)-b = k-(a+b)
          let ab ← AddExpr.create a r
          SubExpr.createL constArrayOpt k ab
        | l, .binary .add (.constant k) b => do
          -- a - (k+b) = (a-b) - k
          let ab ← SubExpr.create l b
          SubExpr.createConstantR constArrayOpt ab k
        | l, .binary .sub (.constant k) b => do
          -- a - (k-b) = (a+b) - k
          let ab ← AddExpr.create l b
          SubExpr.createConstantR constArrayOpt ab k
        | l, r => some (.binary .sub l r)
  else none
termination_by l.nodes + r.nodes
decreasing_by all_goals (simp only [Expr.nodes]; omega)

end

def MulExpr.createPartialR (cl : APInt) (r : Expr) : Option Expr :=
  if cl.width = 1 then AndExpr.createPartial r cl
  else if isOne cl then some r
  else if isZero cl then some (.constant cl)
  else some (.binary .mul (.constant cl) r)

def MulExpr.create : Expr → Expr → Option Expr :=
  createR (APInt.map₂ BinaryKind.mul.apply) (fun l cr => createPartialR cr l) createPartialR
    fun l r => if l.width = 1 then some (.binary .and l r) else some (.binary .mul l r)

/-- A constant is divided by the constant zero, which the operations of `APInt` refuse. -/
def dividesByZero : Expr → Expr → Bool
  | .constant _, .constant c => isZero c
  | _, _ => false

/-- `BCREATE` of a division; `bool` is what a boolean division gives, whose divisor must be 1. -/
def createDivision (kind : BinaryKind) (bool : Expr → Expr) (l r : Expr) : Option Expr :=
  if dividesByZero l r then none
  else
    createB (APInt.map₂ kind.apply)
      (fun l r => if l.width = 1 then some (bool l) else some (.binary kind l r)) l r

def UDivExpr.create : Expr → Expr → Option Expr := createDivision .udiv id

def SDivExpr.create : Expr → Expr → Option Expr := createDivision .sdiv id

def URemExpr.create : Expr → Expr → Option Expr := createDivision .urem fun _ => .ofBool false

def SRemExpr.create : Expr → Expr → Option Expr := createDivision .srem fun _ => .ofBool false

def andNot (l r : Expr) : Option Expr := do
  let notR ← r.createIsZero constArrayOpt
  AndExpr.create l notR

def notOr (l r : Expr) : Option Expr := do
  let notL ← l.createIsZero constArrayOpt
  OrExpr.create notL r

def ShlExpr.create : Expr → Expr → Option Expr :=
  createB (APInt.map₂ BinaryKind.shl.apply) fun l r =>
    if l.width = 1 then andNot constArrayOpt l r else some (.binary .shl l r)

def LShrExpr.create : Expr → Expr → Option Expr :=
  createB (APInt.map₂ BinaryKind.lshr.apply) fun l r =>
    if l.width = 1 then andNot constArrayOpt l r else some (.binary .lshr l r)

def AShrExpr.create : Expr → Expr → Option Expr :=
  createB (APInt.map₂ BinaryKind.ashr.apply) fun l r => if l.width = 1 then some l else some (.binary .ashr l r)

def UltExpr.create : Expr → Expr → Option Expr :=
  createB (APInt.rel₂ CmpKind.ult.apply) fun l r =>
    if l.width = 1 then do
      -- !l && r
      let notL ← l.createIsZero constArrayOpt
      AndExpr.create notL r
    else some (.cmp .ult l r)

def UleExpr.create : Expr → Expr → Option Expr :=
  createB (APInt.rel₂ CmpKind.ule.apply) fun l r =>
    -- !(l && !r)
    if l.width = 1 then notOr constArrayOpt l r else some (.cmp .ule l r)

def SltExpr.create : Expr → Expr → Option Expr :=
  createB (APInt.rel₂ CmpKind.slt.apply) fun l r =>
    -- l && !r
    if l.width = 1 then andNot constArrayOpt l r else some (.cmp .slt l r)

def SleExpr.create : Expr → Expr → Option Expr :=
  createB (APInt.rel₂ CmpKind.sle.apply) fun l r =>
    if l.width = 1 then do
      -- !(!l && r)
      let notR ← r.createIsZero constArrayOpt
      OrExpr.create l notR
    else some (.cmp .sle l r)

def NeExpr.create (l r : Expr) : Option Expr := do
  let eq ← EqExpr.create constArrayOpt l r
  EqExpr.create constArrayOpt (.ofBool false) eq

def UgtExpr.create (l r : Expr) : Option Expr := UltExpr.create constArrayOpt r l

def UgeExpr.create (l r : Expr) : Option Expr := UleExpr.create constArrayOpt r l

def SgtExpr.create (l r : Expr) : Option Expr := SltExpr.create constArrayOpt r l

def SgeExpr.create (l r : Expr) : Option Expr := SleExpr.create constArrayOpt r l

def SelectExpr.create (c t f : Expr) : Option Expr :=
  -- assert: type mismatch
  if c.width = 1 ∧ t.width = f.width then
    match c with
    | .constant v => some (if isTrue v then t else f)
    | c =>
      if t = f then some t
      else if t.width = 1 then
        -- c ? t : f  <=> (c and t) or (not c and f)
        match t, f with
        | .constant v, f =>
          if isTrue v then OrExpr.create c f
          else do
            let notC ← c.createIsZero constArrayOpt
            AndExpr.create notC f
        | t, .constant v =>
          if isTrue v then do
            let notC ← c.createIsZero constArrayOpt
            OrExpr.create notC t
          else AndExpr.create c t
        | t, f => some (.select c t f)
      else some (.select c t f)
  else none

/-- The loop of `ReadExpr::create` over the updates: the value that has been written, or the updates from the first
one on whose index may or may not be the one that is read. -/
def ReadExpr.rollback (index : Expr) : UpdateNode → Option (Expr ⊕ UpdateNode)
  | .nil => some (.inr .nil)
  | .cons i value next => do
    match ← EqExpr.create constArrayOpt index i with
    | .constant c => if isTrue c then some (.inl value) else rollback index next
    -- found write with symbolic index
    | _ => some (.inr (.cons i value next))

def ReadExpr.create (root : ExprArray) (head : UpdateNode) (index : Expr) : Option Expr := do
  match ← rollback constArrayOpt index head with
  | .inl value => some value
  | .inr un =>
    match index with
    | .constant c =>
      -- assert: index too large
      if c.width ≤ 64 then
        if c.toNat < root.size then
          if ¬root.isSymbolicArray ∧ un = .nil then
            some (.constant ⟨root.range, root.constantValues.getD c.toNat 0⟩)
          -- shortened update list
          else some (.read root un (.constant c))
        else some (.read root head (.constant c))
      else none
    | index => some (.read root head index)

end ConstArrayOpt

def Expr.extractedNodes : Expr → Nat
  | .extract expr _ _ => expr.nodes
  | _ => 0

theorem Expr.extractedNodes_le (e : Expr) : e.extractedNodes ≤ e.nodes := by
  cases e <;> simp [extractedNodes, nodes]

/-- Expressions that are no extract of anything with more than `n` nodes. -/
abbrev ExtractBound (n : Nat) := {e : Expr // e.extractedNodes ≤ n}

/-- `ConcatExpr::create`, where `extract` is `ExtractExpr::create` of what the two extracts are taken from. -/
def ConcatExpr.merge (l r : Expr)
    (extract : (expr : Expr) → expr.nodes ≤ l.extractedNodes → Nat → Nat → Option (ExtractBound expr.nodes)) :
    Option (ExtractBound l.extractedNodes) :=
  match l, r with
  | .constant cl, .constant cr => some ⟨.constant (cl.append cr), Nat.zero_le _⟩
  | .extract left leftOffset leftWidth, .extract right offset width =>
    -- merge contiguous extracts
    if left = right ∧ offset + width = leftOffset then extract left (Nat.le_refl _) offset (leftWidth + width)
    else some ⟨.concat (.extract left leftOffset leftWidth) (.extract right offset width), Nat.zero_le _⟩
  | l, r => some ⟨.concat l r, Nat.zero_le _⟩

def ExtractExpr.createBounded (e : Expr) (off w : Nat) : Option (ExtractBound e.nodes) :=
  -- assert: invalid extract
  if 0 < w ∧ off + w ≤ e.width then
    if w = e.width then some ⟨e, e.extractedNodes_le⟩
    else
      match e with
      | .constant c => some ⟨.constant (c.extract off w), Nat.zero_le _⟩
      | .concat left right =>
        if right.width ≤ off then do
          -- the extract skips the right side of the concat
          let x ← createBounded left (off - right.width) w
          some ⟨x.1, x.2.trans (by simp only [Expr.nodes]; omega)⟩
        else if off + w ≤ right.width then do
          -- the extract skips the left side of the concat
          let x ← createBounded right off w
          some ⟨x.1, x.2.trans (by simp only [Expr.nodes]; omega)⟩
        else do
          -- E(C(x,y)) = C(E(x), E(y))
          let x ← createBounded left 0 (w + off - right.width)
          let y ← createBounded right off (right.width - off)
          let z ← ConcatExpr.merge x.1 y.1 fun expr _ => createBounded expr
          some ⟨z.1, z.2.trans (x.2.trans (by simp only [Expr.nodes]; omega))⟩
      | e => some ⟨.extract e off w, Nat.le_refl _⟩
  else none
termination_by e.nodes
decreasing_by
  · simp only [Expr.nodes]
    omega
  · simp only [Expr.nodes]
    omega
  · simp only [Expr.nodes]
    omega
  · simp only [Expr.nodes]
    omega
  · rename_i h
    have := x.2
    simp only [Expr.nodes]
    omega

def ExtractExpr.create (e : Expr) (off w : Nat) : Option Expr := (createBounded e off w).map (·.1)

def ConcatExpr.create (l r : Expr) : Option Expr :=
  (merge l r fun expr _ => ExtractExpr.createBounded expr).map (·.1)

def NotExpr.create : Expr → Option Expr
  | .constant c => some (.constant c.complement)
  | e => some (.not e)

def CastExpr.create (kind : CastKind) (e : Expr) (w : Nat) : Option Expr :=
  if w = e.width then some e
  -- trunc
  else if w < e.width then ExtractExpr.create e 0 w
  else
    match e with
    | .constant c => some (.constant (kind.apply c w))
    | e => some (.cast kind e w)

def ZExtExpr.create : Expr → Nat → Option Expr := CastExpr.create .zext

def SExtExpr.create : Expr → Nat → Option Expr := CastExpr.create .sext

def NotOptimizedExpr.create (src : Expr) : Option Expr := some (.notOptimized src)

def BinaryKind.create (constArrayOpt : Bool) : BinaryKind → Expr → Expr → Option Expr
  | .add => AddExpr.create constArrayOpt
  | .sub => SubExpr.create constArrayOpt
  | .mul => MulExpr.create
  | .udiv => UDivExpr.create
  | .sdiv => SDivExpr.create
  | .urem => URemExpr.create
  | .srem => SRemExpr.create
  | .and => AndExpr.create
  | .or => OrExpr.create
  | .xor => XorExpr.create constArrayOpt
  | .shl => ShlExpr.create constArrayOpt
  | .lshr => LShrExpr.create constArrayOpt
  | .ashr => AShrExpr.create

def CmpKind.create (constArrayOpt : Bool) : CmpKind → Expr → Expr → Option Expr
  | .eq => EqExpr.create constArrayOpt
  | .ne => NeExpr.create constArrayOpt
  | .ult => UltExpr.create constArrayOpt
  | .ule => UleExpr.create constArrayOpt
  | .ugt => UgtExpr.create constArrayOpt
  | .uge => UgeExpr.create constArrayOpt
  | .slt => SltExpr.create constArrayOpt
  | .sle => SleExpr.create constArrayOpt
  | .sgt => SgtExpr.create constArrayOpt
  | .sge => SgeExpr.create constArrayOpt

/-- The smart constructor of the node, applied to its operands. -/
def Expr.recreate (constArrayOpt : Bool) : Expr → Option Expr
  | .constant value => some (.constant value)
  | .notOptimized src => NotOptimizedExpr.create src
  | .read root head index => ReadExpr.create constArrayOpt root head index
  | .select cond trueExpr falseExpr => SelectExpr.create constArrayOpt cond trueExpr falseExpr
  | .concat left right => ConcatExpr.create left right
  | .extract expr offset width => ExtractExpr.create expr offset width
  | .cast kind src width => CastExpr.create kind src width
  | .not expr => NotExpr.create expr
  | .binary kind left right => kind.create constArrayOpt left right
  | .cmp kind left right => kind.create constArrayOpt left right

end CgsKlee
