import HonorKernel.RedBlack
import HonorKernel.Runs

-- common/rbtree.c on a memory of nodes. A node is known by its address, NULL is 0, and
-- `__rb_parent_color` holds the parent's address and the colour in its lowest bit.
namespace RbTree
open RedBlack

structure Node where
  parentColor : Nat
  right : Nat
  left : Nat
  deriving DecidableEq

structure State where
  node : Nat → Node
  root : Nat

-- `endless` is a loop that needs more rounds than it was given.
inductive Fault where
  | null
  | endless
  deriving DecidableEq

-- RB_RED, RB_BLACK
def bit : Color → Nat
  | .red => 0
  | .black => 1

-- pc & ~3
def rbParent (pc : Nat) : Nat := pc/4*4

def rbIsBlack (pc : Nat) : Bool := pc &&& 1 == 1

-- rb_left, rb_right
def Node.child (n : Node) : Side → Nat
  | .left => n.left
  | .right => n.right

def Node.setChild (n : Node) (side : Side) (p : Nat) : Node :=
  match side with
  | .left => {n with left := p}
  | .right => {n with right := p}

-- The source writes each loop body out twice, for a node on the left of `n` and on the right.
def Node.sideOf (n : Node) (p : Nat) : Side := if p ≠ n.right then .left else .right

def State.put (s : State) (p : Nat) (f : Node → Node) : State := {s with node := Function.update s.node p (f (s.node p))}

def State.read (s : State) (p : Nat) : Except Fault Node := if p = 0 then .error .null else .ok (s.node p)

def State.write (s : State) (p : Nat) (f : Node → Node) : Except Fault State := if p = 0 then .error .null else .ok (s.put p f)

def State.setChild (s : State) (p : Nat) (side : Side) (q : Nat) : Except Fault State := s.write p fun n => n.setChild side q

def reword (pc : Nat) (n : Node) : Node := {n with parentColor := pc}

def paintWord (p : Nat) (c : Color) (n : Node) : Node := {n with parentColor := p ||| bit c}

def parentWord (p : Nat) (n : Node) : Node := {n with parentColor := n.parentColor &&& 1 ||| p}

def rbSetParentColor (s : State) (rb p : Nat) (c : Color) : Except Fault State := s.write rb (paintWord p c)

def rbSetParent (s : State) (rb p : Nat) : Except Fault State := s.write rb (parentWord p)

def rbSetBlack (s : State) (rb : Nat) : Except Fault State := s.write rb fun n => {n with parentColor := n.parentColor ||| 1}

-- if (tmp) rb_set_parent_color(tmp, p, color), and the same for rb_set_parent
def unlessNull (s : State) (tmp : Nat) (f : Node → Node) : State := if tmp = 0 then s else s.put tmp f

-- tmp && rb_is_red(tmp)
def State.isRed (s : State) (tmp : Nat) : Bool := decide (tmp ≠ 0) && !rbIsBlack (s.node tmp).parentColor

def rbChangeChild (s : State) (old new parent : Nat) : Except Fault State :=
  if parent = 0 then .ok {s with root := new}
  else if (s.node parent).left = old then s.setChild parent .left new
  else s.setChild parent .right new

def rbRotateSetParents (s : State) (old new : Nat) (c : Color) : Except Fault State := do
  let n ← s.read old
  let parent := rbParent n.parentColor
  let s ← s.write new (reword n.parentColor)
  let s ← rbSetParentColor s old new c
  rbChangeChild s old new parent

-- Case 2 of the insertion: the rotation at the parent. The grandparent is relinked in case 3.
def insertInner (s : State) (side : Side) (node parent : Nat) : Except Fault (State × Nat × Nat) := do
  let n ← s.read node
  let tmp := n.child side
  let s ← s.setChild parent side.other tmp
  let s := unlessNull s tmp (paintWord parent .black)
  let s ← s.setChild node side parent
  let s ← rbSetParentColor s parent node .red
  let n ← s.read node
  .ok (s,node,n.child side.other)

-- Case 3: the rotation at the grandparent.
def insertOuter (s : State) (side : Side) (parent gparent tmp : Nat) : Except Fault State := do
  let s ← s.setChild gparent side tmp
  let s := unlessNull s tmp (paintWord gparent .black)
  let s ← s.setChild parent side.other gparent
  rbRotateSetParents s gparent parent .red

def rbInsertFix : Nat → State → Nat → Nat → Except Fault State
  | 0,_,_,_ => .error .endless
  | fuel+1,s,node,parent =>
    if parent = 0 then do
      let s ← rbSetParentColor s node 0 .black
      .ok {s with root := node}
    else if rbIsBlack (s.node parent).parentColor then .ok s
    else do
      let gparent := (s.node parent).parentColor
      let g ← s.read gparent
      let side := g.sideOf parent
      let tmp := g.child side.other
      if s.isRed tmp then do
        let s ← rbSetParentColor s tmp gparent .black
        let s ← rbSetParentColor s parent gparent .black
        let parent := rbParent (s.node gparent).parentColor
        let s ← rbSetParentColor s gparent parent .red
        rbInsertFix fuel s gparent parent
      else do
        let tmp := (s.node parent).child side.other
        let (s,parent,tmp) ← if node = tmp then insertInner s side node parent else .ok (s,parent,tmp)
        insertOuter s side parent gparent tmp

-- do { parent = successor; successor = tmp; tmp = tmp->rb_left; } while (tmp)
def rbSuccessor : Nat → State → Nat → Nat → Except Fault (Nat × Nat)
  | 0,_,_,_ => .error .endless
  | fuel+1,s,successor,tmp =>
    let next := (s.node tmp).left
    if next = 0 then .ok (successor,tmp) else rbSuccessor fuel s tmp next

-- The end of __rb_erase for a node with two children: the successor takes its place.
def rbReplace (s : State) (node parent successor child2 : Nat) : Except Fault (State × Nat) := do
  let n ← s.read node
  let s ← s.setChild successor .left n.left
  let s ← rbSetParent s n.left successor
  let pc := (s.node node).parentColor
  let s ← rbChangeChild s node successor (rbParent pc)
  let pc2 := (s.node successor).parentColor
  let s ← s.write successor (reword pc)
  if child2 ≠ 0 then do
    let s ← rbSetParentColor s child2 parent .black
    .ok (s,0)
  else .ok (s,if rbIsBlack pc2 then parent else 0)

-- __rb_erase: unlinks the node and returns where the tree is one black node short, or NULL.
def rbUnlink (fuel : Nat) (s : State) (node : Nat) : Except Fault (State × Nat) := do
  let n ← s.read node
  let child := n.right
  let pc := n.parentColor
  if n.left = 0 then do
    let parent := rbParent pc
    let s ← rbChangeChild s node child parent
    if child ≠ 0 then do
      let s ← s.write child (reword pc)
      .ok (s,0)
    else .ok (s,if rbIsBlack pc then parent else 0)
  else if child = 0 then do
    let s ← s.write n.left (reword pc)
    let s ← rbChangeChild s node n.left (rbParent pc)
    .ok (s,0)
  else do
    let c ← s.read child
    let (s,parent,successor,child2) ←
      if c.left = 0 then .ok (s,child,child,c.right)
      else do
        let (parent,successor) ← rbSuccessor fuel s child c.left
        let m ← s.read successor
        let child2 := m.right
        let s ← s.setChild parent .left child2
        let s ← s.setChild successor .right child
        let s ← rbSetParent s child successor
        .ok (s,parent,successor,child2)
    rbReplace s node parent successor child2

-- Case 1 of the erasure: a red sibling is rotated up.
def eraseSibling (s : State) (side : Side) (parent sibling : Nat) : Except Fault (State × Nat) := do
  let n ← s.read sibling
  let tmp1 := n.child side
  let s ← s.setChild parent side.other tmp1
  let s ← rbSetParentColor s tmp1 parent .black
  let s ← s.setChild sibling side parent
  let s ← rbRotateSetParents s parent sibling .red
  .ok (s,tmp1)

-- Case 3: the rotation at the sibling.
def eraseInner (s : State) (side : Side) (parent sibling tmp2 : Nat) : Except Fault (State × Nat × Nat) := do
  let m ← s.read tmp2
  let tmp1 := m.child side.other
  let s ← s.setChild sibling side tmp1
  let s := unlessNull s tmp1 (paintWord sibling .black)
  let s ← s.setChild tmp2 side.other sibling
  let s ← s.setChild parent side.other tmp2
  .ok (s,sibling,tmp2)

-- Case 4: the rotation at the parent.
def eraseOuter (s : State) (side : Side) (parent sibling tmp1 : Nat) : Except Fault State := do
  let n ← s.read sibling
  let tmp2 := n.child side
  let s ← s.setChild parent side.other tmp2
  let s := unlessNull s tmp2 (parentWord parent)
  let s ← s.setChild sibling side parent
  let s ← rbSetParentColor s tmp1 sibling .black
  rbRotateSetParents s parent sibling .black

-- What the loop does with a black sibling; `again` is the next round.
def eraseRest (again : State → Nat → Nat → Except Fault State) (s : State) (side : Side) (parent sibling : Nat) : Except Fault State := do
  let n ← s.read sibling
  let tmp1 := n.child side.other
  let tmp2 := n.child side
  if !s.isRed tmp1 && !s.isRed tmp2 then do
    let s ← rbSetParentColor s sibling parent .red
    if rbIsBlack (s.node parent).parentColor then
      let above := rbParent (s.node parent).parentColor
      if above = 0 then .ok s else again s parent above
    else rbSetBlack s parent
  else do
    let (s,tmp1,sibling) ← if s.isRed tmp1 then .ok (s,tmp1,sibling) else eraseInner s side parent sibling tmp2
    eraseOuter s side parent sibling tmp1

def rbEraseFix : Nat → State → Nat → Nat → Except Fault State
  | 0,_,_,_ => .error .endless
  | fuel+1,s,node,parent => do
    let p ← s.read parent
    let side := p.sideOf node
    let sibling := p.child side.other
    let n ← s.read sibling
    let (s,sibling) ← if rbIsBlack n.parentColor then .ok (s,sibling) else eraseSibling s side parent sibling
    eraseRest (rbEraseFix fuel) s side parent sibling

-- The search of _rb_insert, which links the node where it falls out of the tree.
def rbDescend (cmp : Nat → Nat → Bool) : Nat → State → Nat → Nat → Except Fault (Bool × State)
  | 0,_,_,_ => .error .endless
  | fuel+1,s,node,nw =>
    if nw = 0 then .ok (true,s)
    else if cmp node nw then
      let next := (s.node nw).left
      if next = 0 then do
        let s ← s.setChild nw .left node
        let s ← s.write node (reword nw)
        rbDescend cmp fuel s node next
      else rbDescend cmp fuel s node next
    else if cmp nw node then
      let next := (s.node nw).right
      if next = 0 then do
        let s ← s.setChild nw .right node
        let s ← s.write node (reword nw)
        rbDescend cmp fuel s node next
      else rbDescend cmp fuel s node next
    else .ok (false,s)

def rbInsert (cmp : Nat → Nat → Bool) (fuel : Nat) (s : State) (node : Nat) : Except Fault (Int × State) := do
  let s ← s.write node fun _ => ⟨0,0,0⟩
  let (linked,s) ← rbDescend cmp fuel s node s.root
  if linked then do
    let s ← rbInsertFix fuel s node (s.node node).parentColor
    .ok (0,s)
  else .ok (-1,s)

def rbErase (fuel : Nat) (s : State) (node : Nat) : Except Fault State := do
  let (s,rebalance) ← rbUnlink fuel s node
  if rebalance ≠ 0 then rbEraseFix fuel s 0 rebalance else .ok s

def rbLookup (cmp : Nat → Nat → Bool) : Nat → State → Nat → Nat → Except Fault Nat
  | 0,_,_,_ => .error .endless
  | fuel+1,s,node,nw =>
    if nw = 0 then .ok 0
    else if cmp node nw then rbLookup cmp fuel s node (s.node nw).left
    else if cmp nw node then rbLookup cmp fuel s node (s.node nw).right
    else .ok nw

-- while (n->rb_left) n = n->rb_left;
def rbLeftmost : Nat → State → Nat → Except Fault Nat
  | 0,_,_ => .error .endless
  | fuel+1,s,n => if (s.node n).left = 0 then .ok n else rbLeftmost fuel s (s.node n).left

def rbFirst (fuel : Nat) (s : State) : Except Fault Nat := if s.root = 0 then .ok 0 else rbLeftmost fuel s s.root

def empty (node : Nat → Node) : State := ⟨node,0⟩

end RbTree
