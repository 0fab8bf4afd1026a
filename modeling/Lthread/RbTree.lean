import Lthread.RedBlack
import Mathlib.Logic.Function.Basic

namespace Lthread

open Function (update)
open RedBlack

/-- How the macros can go wrong: they follow a null pointer, or do not come to an end. -/
inductive RbFault where
  | nullPointer | endless
  deriving DecidableEq, Repr

/-- `RB_ENTRY`. -/
structure RbEntry (α : Type*) where
  left : Option α
  right : Option α
  parent : Option α
  color : Color
  deriving DecidableEq, Repr

namespace RbEntry

variable {α : Type*}

/-- `RB_LEFT` and `RB_RIGHT`. -/
def child (e : RbEntry α) : Side → Option α
  | .left => e.left
  | .right => e.right

def setChild (e : RbEntry α) (s : Side) (p : Option α) : RbEntry α :=
  match s with
  | .left => { e with left := p }
  | .right => { e with right := p }

def setParent (e : RbEntry α) (p : Option α) : RbEntry α := { e with parent := p }

def setColor (e : RbEntry α) (c : Color) : RbEntry α := { e with color := c }

def replace [DecidableEq α] (e : RbEntry α) (old : α) (new : Option α) : RbEntry α :=
  if e.left = some old then { e with left := new } else { e with right := new }

end RbEntry

/-- `RB_HEAD`, with the entries of all nodes. -/
structure RbTree (α : Type*) where
  root : Option α
  entry : α → RbEntry α

namespace RbTree

variable {α : Type*} [DecidableEq α]

def setChild (h : RbTree α) (x : α) (s : Side) (p : Option α) : RbTree α :=
  { h with entry := update h.entry x ((h.entry x).setChild s p) }

def setParent (h : RbTree α) (x : α) (p : Option α) : RbTree α :=
  { h with entry := update h.entry x ((h.entry x).setParent p) }

def setColor (h : RbTree α) (x : α) (c : Color) : RbTree α :=
  { h with entry := update h.entry x ((h.entry x).setColor c) }

def setParentOf (h : RbTree α) (child : Option α) (p : Option α) : RbTree α :=
  match child with
  | some x => h.setParent x p
  | none => h

def blacken (h : RbTree α) (elm : Option α) : RbTree α :=
  match elm with
  | some x => h.setColor x .black
  | none => h

/-- The code that puts `new` in the place of `old` below `parent`, or at the root. -/
def replaceChild (h : RbTree α) (parent : Option α) (old : α) (new : Option α) : RbTree α :=
  match parent with
  | some p => { h with entry := update h.entry p ((h.entry p).replace old new) }
  | none => { h with root := new }

/-- `elm && RB_COLOR(elm) == RB_RED`; the tests `elm == NULL || RB_COLOR(elm) == RB_BLACK` are
its negation. -/
def isRed (h : RbTree α) : Option α → Bool
  | some x => (h.entry x).color = .red
  | none => false

end RbTree

variable {α : Type*} [DecidableEq α]

def deref : Option α → Except RbFault α
  | some x => .ok x
  | none => .error .nullPointer

/-- `RB_SET`. -/
def rbSet (h : RbTree α) (elm : α) (parent : Option α) : RbTree α :=
  { h with entry := update h.entry elm ⟨none, none, parent, .red⟩ }

/-- `RB_SET_BLACKRED`. -/
def rbSetBlackred (h : RbTree α) (black red : α) : RbTree α :=
  (h.setColor black .black).setColor red .red

/-- `RB_ROTATE_LEFT` and, for the other side, `RB_ROTATE_RIGHT`. -/
def rbRotate (s : Side) (h : RbTree α) (elm : α) : Except RbFault (RbTree α) := do
  let tmp ← deref ((h.entry elm).child s.other)
  let inner := (h.entry tmp).child s
  let h := h.setChild elm s.other inner
  let h := h.setParentOf inner (some elm)
  let h := h.setParent tmp (h.entry elm).parent
  let h := h.replaceChild (h.entry elm).parent elm (some tmp)
  let h := h.setChild tmp s (some elm)
  return h.setParent elm (some tmp)

/-- One turn of the loop of `RB_INSERT_COLOR`, where `parent` is the child of `gparent` on side
`s`. The new value of `elm` is returned with the tree. -/
def rbInsertColorTurn (s : Side) (h : RbTree α) (elm parent gparent : α) :
    Except RbFault (RbTree α × α) :=
  let tmp := (h.entry gparent).child s.other
  if h.isRed tmp then
    .ok (rbSetBlackred (h.blacken tmp) parent gparent, gparent)
  else if (h.entry parent).child s.other = some elm then do
    let h ← rbRotate s h parent
    let h ← rbRotate s.other (rbSetBlackred h elm gparent) gparent
    return (h, parent)
  else do
    let h ← rbRotate s.other (rbSetBlackred h parent gparent) gparent
    return (h, elm)

/-- `RB_INSERT_COLOR`. -/
def rbInsertColor : ℕ → RbTree α → α → Except RbFault (RbTree α)
  | 0, _, _ => .error .endless
  | fuel + 1, h, elm =>
    match (h.entry elm).parent with
    | some parent =>
      if (h.entry parent).color = .red then do
        let gparent ← deref (h.entry parent).parent
        let s := if (h.entry gparent).left = some parent then Side.left else .right
        let (h, elm) ← rbInsertColorTurn s h elm parent gparent
        rbInsertColor fuel h elm
      else return h.blacken (some (← deref h.root))
    | none => return h.blacken (some (← deref h.root))

/-- The last rotation of `RB_REMOVE_COLOR`, after which the loop is left. -/
def rbRemoveColorLast (s : Side) (h : RbTree α) (parent tmp : α) : Except RbFault (RbTree α) :=
  let h := h.setColor tmp (h.entry parent).color
  let h := h.setColor parent .black
  rbRotate s (h.blacken ((h.entry tmp).child s.other)) parent

/-- What `RB_REMOVE_COLOR` does below `parent` when the sibling `tmp` of `elm` is black: it goes
on with `elm` and `parent` moved up, or it leaves the loop. -/
def rbRemoveColorBlack (s : Side) (h : RbTree α) (parent tmp : α) :
    Except RbFault (RbTree α × Option (Option α × Option α)) :=
  if !h.isRed (h.entry tmp).left && !h.isRed (h.entry tmp).right then
    .ok (h.setColor tmp .red, some ((h.entry parent).parent, some parent))
  else if !h.isRed ((h.entry tmp).child s.other) then do
    let h := (h.blacken ((h.entry tmp).child s)).setColor tmp .red
    let h ← rbRotate s.other h tmp
    let tmp ← deref ((h.entry parent).child s.other)
    return (← rbRemoveColorLast s h parent tmp, none)
  else do
    return (← rbRemoveColorLast s h parent tmp, none)

/-- One turn of the loop of `RB_REMOVE_COLOR`, where `elm` is the child of `parent` on side
`s`. -/
def rbRemoveColorTurn (s : Side) (h : RbTree α) (parent : α) :
    Except RbFault (RbTree α × Option (Option α × Option α)) := do
  let tmp ← deref ((h.entry parent).child s.other)
  if (h.entry tmp).color = .red then
    let h ← rbRotate s (rbSetBlackred h tmp parent) parent
    let tmp ← deref ((h.entry parent).child s.other)
    rbRemoveColorBlack s h parent tmp
  else rbRemoveColorBlack s h parent tmp

/-- `RB_REMOVE_COLOR`. -/
def rbRemoveColor : ℕ → RbTree α → Option α → Option α → Except RbFault (RbTree α)
  | 0, _, _, _ => .error .endless
  | fuel + 1, h, parent, elm =>
    if !h.isRed elm && elm ≠ h.root then do
      let p ← deref parent
      let s := if (h.entry p).left = elm then Side.left else .right
      let (h, next) ← rbRemoveColorTurn s h p
      match next with
      | some (parent, elm) => rbRemoveColor fuel h parent elm
      | none => return h.blacken h.root
    else return h.blacken elm

/-- The loop of `RB_REMOVE` that looks for the leftmost node below `elm`. -/
def rbLeftmost (h : RbTree α) : ℕ → α → Except RbFault α
  | 0, _ => .error .endless
  | fuel + 1, elm =>
    match (h.entry elm).left with
    | some left => rbLeftmost h fuel left
    | none => .ok elm

/-- `RB_REMOVE` of a node with at most one child: what takes its place is `child`. -/
def rbUnlink (h : RbTree α) (elm : α) (child : Option α) : RbTree α :=
  let parent := (h.entry elm).parent
  (h.setParentOf child parent).replaceChild parent elm child

/-- `RB_REMOVE` of a node with two children, from `(elm)->field = (old)->field` on: `elm` takes the
place of `old`. -/
def rbSubstitute (h : RbTree α) (old elm : α) : Except RbFault (RbTree α) := do
  let h := { h with entry := update h.entry elm (h.entry old) }
  let h := h.replaceChild (h.entry old).parent old (some elm)
  let left ← deref (h.entry old).left
  let h := h.setParent left (some elm)
  return h.setParentOf (h.entry old).right (some elm)

/-- `RB_REMOVE` of a node with two children, where `elm` is the next node. The parent of what
`elm` leaves behind is returned with the tree. -/
def rbUnlinkNext (h : RbTree α) (old elm : α) : Except RbFault (RbTree α × Option α) := do
  let parent := (h.entry elm).parent
  let h := rbUnlink h elm (h.entry elm).right
  let parent := if (h.entry elm).parent = some old then some elm else parent
  return (← rbSubstitute h old elm, parent)

/-- The loop of `RB_REMOVE` that walks from `left` up to the root. `RB_AUGMENT` is empty, so
nothing but the parents is read. -/
def rbAugment (h : RbTree α) : ℕ → Option α → Except RbFault (RbTree α)
  | 0, _ => .error .endless
  | _ + 1, none => .ok h
  | fuel + 1, some left => rbAugment h fuel (h.entry left).parent

/-- `RB_REMOVE`. -/
def rbRemove (fuel : ℕ) (h : RbTree α) (elm : α) : Except RbFault (RbTree α) := do
  let old := h.entry elm
  let (h, color, parent, child) ←
    match old.left, old.right with
    | none, child => pure (rbUnlink h elm child, old.color, old.parent, child)
    | child, none => pure (rbUnlink h elm child, old.color, old.parent, child)
    | some _, some right => do
      let next ← rbLeftmost h fuel right
      let color := (h.entry next).color
      let child := (h.entry next).right
      let (h, parent) ← rbUnlinkNext h elm next
      let h ← rbAugment h fuel parent
      pure (h, color, parent, child)
  if color = .black then rbRemoveColor fuel h parent child
  else return h

/-- Where the loop of `RB_INSERT` ends: at a node that compares equal, or below the last node it
has compared with. -/
inductive RbPlace (α : Type*) where
  | found (x : α)
  | below (parent : Option α) (comp : Int)

/-- The loop of `RB_INSERT`; `comp` compares the new node with a node of the tree. -/
def rbDescend (h : RbTree α) (cmp : α → Int) :
    ℕ → Option α → Option α → Int → Except RbFault (RbPlace α)
  | 0, _, _, _ => .error .endless
  | _ + 1, none, parent, comp => .ok (.below parent comp)
  | fuel + 1, some tmp, _, _ =>
    if cmp tmp < 0 then rbDescend h cmp fuel (h.entry tmp).left (some tmp) (cmp tmp)
    else if 0 < cmp tmp then rbDescend h cmp fuel (h.entry tmp).right (some tmp) (cmp tmp)
    else .ok (.found tmp)

/-- `RB_INSERT` below `parent`, up to the call of `RB_INSERT_COLOR`. -/
def rbLink (h : RbTree α) (elm : α) (parent : Option α) (comp : Int) : RbTree α :=
  let h := rbSet h elm parent
  match parent with
  | some p => h.setChild p (if comp < 0 then .left else .right) (some elm)
  | none => { h with root := some elm }

/-- `RB_INSERT`: the node that is in the way, if there is one, is returned with the tree. -/
def rbInsert (fuel : ℕ) (cmp : α → α → Int) (h : RbTree α) (elm : α) :
    Except RbFault (RbTree α × Option α) := do
  match ← rbDescend h (cmp elm) fuel h.root none 0 with
  | .found tmp => return (h, some tmp)
  | .below parent comp =>
    let h ← rbInsertColor fuel (rbLink h elm parent comp) elm
    return (h, none)

/-- `RB_FIND`, where `cmp` compares the key that is looked for with a node of the tree. -/
def rbFind (h : RbTree α) (cmp : α → Int) : ℕ → Option α → Except RbFault (Option α)
  | 0, _ => .error .endless
  | _ + 1, none => .ok none
  | fuel + 1, some tmp =>
    if cmp tmp < 0 then rbFind h cmp fuel (h.entry tmp).left
    else if 0 < cmp tmp then rbFind h cmp fuel (h.entry tmp).right
    else .ok (some tmp)

/-- The loop of `RB_MINMAX`. -/
def rbMinmaxLoop (h : RbTree α) (val : Int) : ℕ → Option α → Option α → Except RbFault (Option α)
  | 0, _, _ => .error .endless
  | _ + 1, none, parent => .ok parent
  | fuel + 1, some tmp, _ =>
    rbMinmaxLoop h val fuel ((h.entry tmp).child (if val < 0 then .left else .right)) (some tmp)

/-- `RB_MIN`, which is `RB_MINMAX` for `RB_NEGINF`. -/
def rbMin (fuel : ℕ) (h : RbTree α) : Except RbFault (Option α) := rbMinmaxLoop h (-1) fuel h.root none

end Lthread
