import LispMachine.Lib.BalTree
import LispMachine.Memory

/-!
The AVL trees of `datastructures.c`, as operations on memory.

A node is four words: `prev` holds the parent with the balance in its low two bits, then come
`left`, `right` and `data`. A tree is given by the address `tr` of the word that points to its
root. The left and right rotations are mirror images and are one definition over a direction.

A loop that revisits no node ends within `fuel` rounds, since there are no more words than
that; the loops give up beyond it.
-/

namespace LispMachine.AvlCode

open LispMachine.Memory LispMachine.Lib.BalTree

/-- A comparator, called on the addresses of two nodes; the results are `1`, `0` and `-1`. -/
abbrev Cmp := Mem → ℕ → ℕ → ℤ

def fuel : ℕ := addrSpace

/-- The offset in a node of the link in direction `d`. -/
def off : Dir → ℕ
  | .L => 1
  | .R => 2

def child (m : Mem) (d : Dir) (nd : ℕ) : ℕ := m.ptr (nd + off d)
def setChild (m : Mem) (d : Dir) (nd p : ℕ) : Mem := m.setPtr (nd + off d) p
def data (m : Mem) (nd : ℕ) : ℕ := m (nd + 3)
def setData (m : Mem) (nd v : ℕ) : Mem := m.set (nd + 3) v

/-- `get_parent` -/
def getParent (m : Mem) (node : ℕ) : ℕ := if node = 0 then 0 else m node / 4 * 4 / 8

/-- `get_balance_factor` -/
def getBalanceFactor (m : Mem) (nd : ℕ) : ℕ := if nd = 0 then 3 else m nd &&& 3

/-- `balance_factor`: `3` is `0`, `1` is `1` and `2` is `-1`. -/
def balanceFactor (m : Mem) (nd : ℕ) : ℤ :=
  if nd = 0 then 0
  else if getBalanceFactor m nd = 1 then 1
  else (getBalanceFactor m nd : ℤ) - 3

/-- `rev_balance_factor` -/
def revBalanceFactor (bf : ℤ) : ℕ :=
  if bf ≠ 0 then (if bf + 1 ≠ 0 then 1 else 2) else 3

/-- `set_balance_factor` -/
def setBalanceFactor (m : Mem) (nd : ℕ) (bf : ℤ) : Mem :=
  if nd = 0 then m else m.set nd (m nd / 4 * 4 ||| revBalanceFactor bf)

/-- Pointing the link of `parent` that leads to `old` to `new`. -/
def replaceChild (m : Mem) (parent old new : ℕ) : Mem :=
  if child m .L parent = old then setChild m .L parent new else setChild m .R parent new

/-- Giving the node `nd`, if there is one, a new parent while keeping its balance. -/
def adopt (m : Mem) (nd parent : ℕ) : Mem :=
  if nd = 0 then m else m.set nd (tagged parent (getBalanceFactor m nd))

/-- `avl_move` -/
def avlMove (m : Mem) (tr dest src : ℕ) : Mem :=
  if dest = src then m
  else
    let parent := getParent m src
    let m := if parent = 0 then m else replaceChild m parent src dest
    let left := child m .L src
    let m := adopt m left dest
    let right := child m .R src
    let m := adopt m right dest
    let m := m.set dest (m src)
    let m := setChild m .L dest left
    let m := setChild m .R dest right
    let m := setData m dest (data m src)
    if m.ptr tr = src then m.setPtr tr dest else m

/-- The child of `nd` in direction `d` becomes the root of the subtree of `nd`. -/
def avlRotate (d : Dir) (m : Mem) (tr nd : ℕ) : Mem × ℕ :=
  if nd = 0 then (m, 0)
  else
    let root := child m d nd
    if root = 0 then (m, 0)
    else
      let m := adopt m (child m d.flip root) nd
      let parent := getParent m nd
      let m := if parent = 0 then m.setPtr tr root else replaceChild m parent nd root
      let oldRootbf := balanceFactor m root
      let m := setChild m d nd (child m d.flip root)
      let m := setChild m d.flip root nd
      if oldRootbf ≠ 0 then
        let m := m.set nd (tagged root (revBalanceFactor 0))
        (m.set root (tagged parent (revBalanceFactor 0)), root)
      else
        let m := m.set nd (tagged root (revBalanceFactor d.sgn))
        (m.set root (tagged parent (revBalanceFactor (-d.sgn))), root)

/-- `avl_rotate_left` -/
def avlRotateLeft : Mem → ℕ → ℕ → Mem × ℕ := avlRotate .R

/-- `avl_rotate_right` -/
def avlRotateRight : Mem → ℕ → ℕ → Mem × ℕ := avlRotate .L

/-- The inner grandchild of `node` on side `d` becomes the root of the subtree of `node`. -/
def avlRotateDouble (d : Dir) (m : Mem) (tr node : ℕ) : Mem × ℕ :=
  let ch := child m d node
  let bf := balanceFactor m (child m d.flip ch)
  let m := (avlRotate d.flip m tr ch).1
  let (m, ret) := avlRotate d m tr node
  let m :=
    if bf = -d.sgn then setBalanceFactor (setBalanceFactor m ch d.sgn) node 0
    else if bf = d.sgn then setBalanceFactor (setBalanceFactor m node (-d.sgn)) ch 0
    else setBalanceFactor (setBalanceFactor m ch 0) node 0
  (setBalanceFactor m (getParent m node) 0, ret)

/-- `avl_rotate_lr` -/
def avlRotateLr : Mem → ℕ → ℕ → Mem × ℕ := avlRotateDouble .L

/-- `avl_rotate_rl` -/
def avlRotateRl : Mem → ℕ → ℕ → Mem × ℕ := avlRotateDouble .R

/-- Writing the four words of a node. -/
def writeNode (m : Mem) (nd prev left right dt : ℕ) : Mem :=
  ((((m.set nd prev).setPtr (nd + 1) left).setPtr (nd + 2) right).set (nd + 3) dt)

/-- The descent of `_avl_insert`: the last node passed and the last comparison, which is `0`
when an equal node was met. -/
def insertSearch (cmp : Cmp) (m : Mem) (node : ℕ) : ℕ → ℕ → ℕ → ℤ → Option (ℕ × ℤ)
  | 0, _, _, _ => none
  | n + 1, tree, insP, b =>
    if tree = 0 then some (insP, b)
    else if cmp m tree node = -1 then insertSearch cmp m node n (child m .L tree) tree (-1)
    else if cmp m tree node = 0 then some (insP, 0)
    else if cmp m tree node = 1 then insertSearch cmp m node n (child m .R tree) tree 1
    else insertSearch cmp m node n tree insP (cmp m tree node)

/-- The way back up of `_avl_insert`, from the node `node` whose subtree `ch` has grown. -/
def insertFix (tr : ℕ) : ℕ → Mem → ℕ → ℕ → Option Mem
  | 0, _, _, _ => none
  | n + 1, m, ch, node =>
    if node = 0 then some m
    else
      let bf := if ch = child m .L node then -1 + balanceFactor m node
        else 1 + balanceFactor m node
      if bf = -2 then
        if balanceFactor m (child m .L node) = -1 then some (avlRotateRight m tr node).1
        else some (avlRotateLr m tr node).1
      else if bf = 2 then
        if balanceFactor m (child m .R node) = 1 then some (avlRotateLeft m tr node).1
        else some (avlRotateRl m tr node).1
      else if bf = 0 then some (setBalanceFactor m node bf)
      else
        let m := setBalanceFactor m node bf
        insertFix tr n m node (getParent m node)

/-- `_avl_insert`: the memory afterwards and the value returned. -/
def avlInsertNode (cmp : Cmp) (m : Mem) (tr nd dt : ℕ) : Option (Mem × ℕ) :=
  let tree := m.ptr tr
  if nd = 0 then some (m, 1)
  else
    let m := writeNode m nd 3 0 0 dt
    if tree = 0 then some (m.setPtr tr nd, 0)
    else
      (insertSearch cmp m nd fuel tree 0 0).bind fun (insP, b) =>
        if b = 0 then some (m, 1)
        else
          let m := m.set nd (tagged insP 3)
          let m := if b = -1 then setChild m .L insP nd else setChild m .R insP nd
          let nodePar := getParent m nd
          if child m .L nodePar ≠ 0 ∧ child m .R nodePar ≠ 0 then
            some (m.set nodePar (m nodePar ||| 3), 0)
          else (insertFix tr fuel m nd nodePar).map fun m => (m, 0)

/-- The descent to the leftmost node of a subtree. -/
def leftmost (m : Mem) : ℕ → ℕ → Option ℕ
  | 0, _ => none
  | n + 1, nd => if child m .L nd = 0 then some nd else leftmost m n (child m .L nd)

/-- The way back up of `_avl_delete`, from the node `parent` that has lost a level on the side
`direction`. -/
def deleteFix (tr : ℕ) : ℕ → Mem → ℕ → ℤ → Option Mem
  | 0, _, _, _ => none
  | n + 1, m, parent, direction =>
    if parent = 0 then some m
    else
      let pp := getParent m parent
      let bf := balanceFactor m parent - direction
      let direction :=
        if pp ≠ 0 then (if child m .L pp = parent then -1 else 1) else direction
      if bf = -2 then
        let bf' := balanceFactor m (child m .L parent)
        let m := if bf' = 1 then (avlRotateLr m tr parent).1 else (avlRotateRight m tr parent).1
        if bf' = 0 then some m else deleteFix tr n m pp direction
      else if bf = -1 then some (setBalanceFactor m parent bf)
      else if bf = 0 then deleteFix tr n (setBalanceFactor m parent bf) pp direction
      else if bf = 1 then some (setBalanceFactor m parent bf)
      else if bf = 2 then
        let bf' := balanceFactor m (child m .R parent)
        let m := if bf' = -1 then (avlRotateRl m tr parent).1 else (avlRotateLeft m tr parent).1
        if bf' = 0 then some m else deleteFix tr n m pp direction
      else deleteFix tr n m pp direction

/-- `_avl_delete`: the memory afterwards and the node taken out of the tree, which need not be
`node`: its successor's data may have been moved into it instead. The source's comparator is
not used. -/
def avlDeleteNode (m : Mem) (tr node : ℕ) : Option (Mem × ℕ) :=
  if m.ptr tr = 0 ∨ node = 0 then some (m, 0)
  else
    (if child m .R node ≠ 0 then leftmost m fuel (child m .R node)
      else some (child m .L node)).bind fun successor =>
      if successor ≠ 0 then
        let parent := getParent m successor
        let m := setData m node (data m successor)
        let ch := child m .R successor
        let m := adopt m ch parent
        if child m .L parent = successor then
          (deleteFix tr fuel (setChild m .L parent ch) parent (-1)).map fun m => (m, successor)
        else
          (deleteFix tr fuel (setChild m .R parent ch) parent 1).map fun m => (m, successor)
      else
        let parent := getParent m node
        if parent = 0 then some (m.setPtr tr 0, node)
        else if child m .L parent = node then
          (deleteFix tr fuel (setChild m .L parent 0) parent (-1)).map fun m => (m, node)
        else if child m .R parent = node then
          (deleteFix tr fuel (setChild m .R parent 0) parent 1).map fun m => (m, node)
        else (deleteFix tr fuel m parent 0).map fun m => (m, node)

/-- The loop of `avl_find`, comparing with the node at `key`. -/
def findLoop (cmp : Cmp) (m : Mem) (key : ℕ) : ℕ → ℕ → Option ℕ
  | 0, _ => none
  | n + 1, tree =>
    if cmp m tree key = 0 then some tree
    else
      let next := if cmp m tree key = -1 then child m .L tree
        else if cmp m tree key = 1 then child m .R tree else tree
      if next = 0 then some 0 else findLoop cmp m key n next

/-- `avl_find`; `loc` is the address of its local node. -/
def avlFind (cmp : Cmp) (m : Mem) (loc tr dt : ℕ) : Option ℕ :=
  let tree := m.ptr tr
  if tree = 0 then some 0 else findLoop cmp (writeNode m loc 0 0 0 dt) loc fuel tree

/-- `avl_min_ge` -/
def avlMinGe (m : Mem) : ℕ → ℕ → ℕ → Option ℕ
  | 0, _, _ => none
  | n + 1, tree, dt =>
    if tree = 0 then some 0
    else
      (avlMinGe m n (child m .L tree) dt).bind fun o =>
        if o ≠ 0 then some o
        else
          (avlMinGe m n (child m .R tree) dt).bind fun o =>
            if o ≠ 0 then some o
            else if dt ≤ data m tree then some tree
            else some 0

/-- `avl_mem_cmp` -/
def avlMemCmp : Cmp := fun _ n1 n2 => if n1 < n2 then 1 else if n1 = n2 then 0 else -1

/-- One move of the search of `avl_merge` towards the block from `addr` to `amax`. -/
def mergeNext (m : Mem) (addr amax tree : ℕ) : ℕ :=
  if tree = 0 then 0
  else if amax < tree then child m .L tree
  else if padd tree (data m tree) < addr then child m .R tree
  else tree

/-- The search of `avl_merge` for the free blocks that end at `addr` and begin at `amax`. -/
def mergeSearch (m : Mem) (addr amax : ℕ) : ℕ → ℕ → ℕ → ℕ → Option (ℕ × ℕ)
  | 0, _, _, _ => none
  | n + 1, tree, left, right =>
    if tree = 0 ∨ left ≠ 0 ∧ right ≠ 0 then some (left, right)
    else if tree = amax then
      mergeSearch m addr amax n (mergeNext m addr amax (child m .L tree)) left tree
    else if padd tree (data m tree) = addr then
      mergeSearch m addr amax n (mergeNext m addr amax (child m .R tree)) tree right
    else mergeSearch m addr amax n (mergeNext m addr amax tree) left right

/-- Deleting the node `nd` itself, by moving back what was moved into its place. -/
def avlRemove (m : Mem) (tr nd : ℕ) : Option Mem :=
  (avlDeleteNode m tr nd).map fun (m, dest) => avlMove m tr dest nd

/-- `avl_merge` -/
def avlMerge (m : Mem) (tr addr size : ℕ) : Option Mem :=
  let amax := padd addr size
  (mergeSearch m addr amax fuel (m.ptr tr) 0 0).bind fun (left, right) =>
    (if right ≠ 0 then
      let size := wadd size (data m right)
      (avlRemove m tr right).map fun m => (m, size)
    else some (m, size)).bind fun (m, size) =>
      (if left ≠ 0 then
        let addr := psub addr (data m left)
        let size := wadd size (data m left)
        (avlRemove m tr left).map fun m => (m, addr, size)
      else some (m, addr, size)).bind fun (m, addr, size) =>
        (avlInsertNode avlMemCmp m tr addr size).map fun (m, _) => m

/-- `avl_basic_cmp` -/
def avlBasicCmp : Cmp := fun m n1 n2 =>
  if data m n1 < data m n2 then 1 else if data m n1 = data m n2 then 0 else -1

end LispMachine.AvlCode
