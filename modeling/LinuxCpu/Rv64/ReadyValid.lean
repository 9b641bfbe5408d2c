import LinuxCpu.Lib.Clocked

/-! The handshake stages of `ready-valid`, over items of any type: `stage_y.v`,
`stage_z.v` and the two in a row. -/

universe u

namespace LinuxCpu.Rv64.ReadyValid

variable {α : Type u}

structure StageY (α : Type u) where
  reg : α
  valid : Bool

namespace StageY

variable (readyGo zAllowIn : Bool) (y : StageY α)

def allowIn : Bool := !y.valid || (readyGo && zAllowIn)

def toZValid : Bool := y.valid && readyGo

/-- `reset` clears `y_valid` and leaves `y_reg` to the handshake. -/
def edge (reset xToYValid : Bool) (xToYBus : α) : StageY α where
  valid :=
    if reset then false
    else if y.allowIn readyGo zAllowIn && xToYValid then true
    else if y.allowIn readyGo zAllowIn && !xToYValid then false
    else y.valid
  reg := if y.allowIn readyGo zAllowIn && xToYValid then xToYBus else y.reg

def held : List α := if y.valid then [y.reg] else []

theorem held_edge (xToYValid : Bool) (xToYBus : α) :
    (if zAllowIn && y.toZValid readyGo then some y.reg else none).toList ++
        (y.edge readyGo zAllowIn false xToYValid xToYBus).held =
      y.held ++
        (if y.allowIn readyGo zAllowIn && xToYValid then some xToYBus else none).toList := by
  obtain ⟨reg, valid⟩ := y
  cases valid <;> cases readyGo <;> cases zAllowIn <;> cases xToYValid <;> rfl

theorem length_held : y.held.length ≤ 1 := by
  rw [held]
  cases y.valid <;> simp

theorem edge_of_keep (xToYValid : Bool) (xToYBus : α) (hv : y.valid = true)
    (hk : (zAllowIn && y.toZValid readyGo) = false) :
    y.edge readyGo zAllowIn false xToYValid xToYBus = y := by
  obtain ⟨reg, valid⟩ := y
  cases hv
  cases readyGo <;> cases zAllowIn <;> first | rfl | cases hk

end StageY

structure StageZ (α : Type u) where
  reg : α
  valid : Bool

namespace StageZ

variable (readyGo : Bool) (z : StageZ α)

def allowIn : Bool := !z.valid || readyGo

def edge (reset yToZValid : Bool) (yToZBus : α) : StageZ α where
  valid :=
    if reset then false
    else if z.allowIn readyGo then yToZValid
    else z.valid
  reg := if z.allowIn readyGo && yToZValid then yToZBus else z.reg

def held : List α := if z.valid then [z.reg] else []

theorem held_edge (yToZValid : Bool) (yToZBus : α) :
    (if z.valid && readyGo then some z.reg else none).toList ++
        (z.edge readyGo false yToZValid yToZBus).held =
      z.held ++ (if z.allowIn readyGo && yToZValid then some yToZBus else none).toList := by
  obtain ⟨reg, valid⟩ := z
  cases valid <;> cases readyGo <;> cases yToZValid <;> rfl

theorem edge_of_keep (yToZValid : Bool) (yToZBus : α) (hv : z.valid = true)
    (hk : (z.valid && readyGo) = false) : z.edge readyGo false yToZValid yToZBus = z := by
  obtain ⟨reg, valid⟩ := z
  cases hv
  cases hk
  rfl

end StageZ

structure Signals (α : Type u) where
  xToYValid : Bool
  xToYBus : α
  yReadyGo : Bool
  zReadyGo : Bool

structure Chain (α : Type u) where
  y : StageY α
  z : StageZ α

namespace Chain

variable (i : Signals α) (s : Chain α)

def zAllowIn : Bool := s.z.allowIn i.zReadyGo

def yAllowIn : Bool := s.y.allowIn i.yReadyGo (s.zAllowIn i)

def yToZValid : Bool := s.y.toZValid i.yReadyGo

def edge (reset : Bool) : Chain α where
  y := s.y.edge i.yReadyGo (s.zAllowIn i) reset i.xToYValid i.xToYBus
  z := s.z.edge i.zReadyGo reset (s.yToZValid i) s.y.reg

def acceptsY : Option α := if s.yAllowIn i && i.xToYValid then some i.xToYBus else none

def acceptsZ : Option α := if s.zAllowIn i && s.yToZValid i then some s.y.reg else none

def leavesZ : Option α := if s.z.valid && i.zReadyGo then some s.z.reg else none

theorem lossless_y :
    Buffer.Lossless (fun i s => s.edge i false) acceptsY acceptsZ fun s : Chain α => s.y.held :=
  fun i s => s.y.held_edge i.yReadyGo (s.zAllowIn i) i.xToYValid i.xToYBus

theorem lossless_z :
    Buffer.Lossless (fun i s => s.edge i false) acceptsZ leavesZ fun s : Chain α => s.z.held :=
  fun i s => s.z.held_edge i.zReadyGo (s.yToZValid i) s.y.reg

end Chain

theorem valid_iff {valid : Bool} {accepted left : List α} {reg : α}
    (h : accepted = left ++ if valid then [reg] else []) :
    (valid = true ↔ accepted = left ++ [reg]) ∧ (valid = false ↔ accepted = left) := by
  cases valid <;> simp [h]

/-- Behind a reset the two stages lose, duplicate and overwrite nothing,
whatever their signals do. -/
theorem Chain.handshake (s₀ : Chain α) (i₀ : Signals α) (is : List (Signals α)) :
    let edge := fun (i : Signals α) (s : Chain α) => s.edge i false
    let start := s₀.edge i₀ true
    let s := Buffer.run edge start is
    let acceptedY := Buffer.items edge acceptsY start is
    let acceptedZ := Buffer.items edge acceptsZ start is
    let leftZ := Buffer.items edge leavesZ start is
    (acceptedZ <+: acceptedY ∧ acceptedY.length ≤ acceptedZ.length + 1) ∧
      (∀ i, s.y.valid = true → s.acceptsZ i = none → (edge i s).y = s.y) ∧
      (∀ i, s.z.valid = true → s.leavesZ i = none → (edge i s).z = s.z) ∧
      ((s.y.valid = true ↔ acceptedY = acceptedZ ++ [s.y.reg]) ∧
        (s.y.valid = false ↔ acceptedY = acceptedZ)) ∧
      ((s.z.valid = true ↔ acceptedZ = leftZ ++ [s.z.reg]) ∧
        (s.z.valid = false ↔ acceptedZ = leftZ)) := by
  intro edge start s acceptedY acceptedZ leftZ
  have hy : acceptedY = acceptedZ ++ s.y.held := lossless_y.accepted_eq rfl is
  have hz : acceptedZ = leftZ ++ s.z.held := lossless_z.accepted_eq rfl is
  refine ⟨⟨hy ▸ List.prefix_append .., ?_⟩, ?_, ?_, valid_iff hy, valid_iff hz⟩
  · rw [hy, List.length_append]
    exact Nat.add_le_add_left s.y.length_held _
  · intro i hv hk
    exact s.y.edge_of_keep _ _ _ _ hv (by simpa [acceptsZ, yToZValid] using hk)
  · intro i hv hk
    exact s.z.edge_of_keep _ _ _ hv (by simpa [leavesZ] using hk)

end LinuxCpu.Rv64.ReadyValid
