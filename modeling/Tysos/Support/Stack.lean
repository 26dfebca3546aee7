import Tysos.Support.ByteMemory

/-!
# Stacks in byte memory

A stack grows down to address 0. What a call must leave alone are the bytes between the
pointer it started from and the top of the stack.
-/

namespace ByteMemory
set_option autoImplicit false

/-- The bytes from `lo` up to `hi` are the same in both memories. -/
def Kept (lo hi : Nat) (m m' : Memory) : Prop :=
  ∀ x : Address, lo ≤ x.toNat → x.toNat < hi → m' x = m x

section
variable {lo lo' hi : Nat} {m m' m'' : Memory}

theorem Kept.refl (lo hi : Nat) (m : Memory) : Kept lo hi m m := fun _ _ _ => rfl

theorem Kept.trans (h : Kept lo hi m m') (h' : Kept lo hi m' m'') : Kept lo hi m m'' :=
  fun x hlo hhi => (h' x hlo hhi).trans (h x hlo hhi)

theorem Kept.mono (h : Kept lo hi m m') (hle : lo ≤ lo') : Kept lo' hi m m' :=
  fun x hlo hhi => h x (Nat.le_trans hle hlo) hhi

theorem Kept.below {hi' : Nat} (h : Kept lo hi m m') (hle : hi' ≤ hi) : Kept lo hi' m m' :=
  fun x hlo hhi => h x hlo (Nat.lt_of_lt_of_le hhi hle)

theorem Kept.words {a : Address} {ws : List (BitVec 32)} (h : Kept lo hi m m')
    (hw : Words m a ws) (hlo : lo ≤ a.toNat) (hlen : a.toNat + 4 * ws.length ≤ hi)
    (hhi : hi ≤ 2 ^ 32) : Words m' a ws := by
  refine hw.congr (by omega) fun x hx => ?_
  unfold InRange at hx
  exact h x (by bv_omega) (by bv_omega)

/-- A word pushed below the part of the stack in use. -/
theorem kept_push {a : Address} (ha : 4 ≤ a.toNat) (v : BitVec 32) (m : Memory) :
    Kept a.toNat hi m (write32 m (a - 4) v) := by
  intro x hlo _
  refine write32_of_not_inRange fun hx => ?_
  unfold InRange at hx
  bv_omega

end

end ByteMemory
