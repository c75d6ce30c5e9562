/-
  A flat memory of bytes, little-endian.

  `store m p n v` writes the `n` low bytes of `v` at `p`, and `load m p n` reads `n` bytes at
  `p` as a number. A load gives back what was stored at its place (`load_store`), and depends
  on its own bytes alone (`load_congr`), so a store apart from them does not change it. An
  `int` takes four bytes and a pointer eight; `ints m p` is the array of `int`s at `p`, and a
  store into the array updates it at one index (`ints_storeInt`).
-/
import Mathlib.Logic.Function.Basic
import GameServer.Lib.CInt
import GameServer.Lib.Region

namespace Memory

open CInt

/-- The byte at each address. -/
abbrev Mem := Int → UInt8

def load (m : Mem) (p : Int) : Nat → Nat
  | 0 => 0
  | n + 1 => (m p).toNat + 256 * load m (p + 1) n

def store (m : Mem) (p : Int) (n v : Nat) : Mem := fun a =>
  if p ≤ a ∧ a < p + n then UInt8.ofNat (v / 256 ^ (a - p).toNat) else m a

/-- `memset` -/
def fill (m : Mem) (p : Int) (v : UInt8) (n : Nat) : Mem := fun a =>
  if p ≤ a ∧ a < p + n then v else m a

/-- The `int` at `p`. -/
def loadInt (m : Mem) (p : Int) : Int := i32 (load m p 4)

def storeInt (m : Mem) (p v : Int) : Mem := store m p 4 (u32 v)

/-- The pointer at `p`. -/
def loadPtr (m : Mem) (p : Int) : Int := load m p 8

def storePtr (m : Mem) (p v : Int) : Mem := store m p 8 (sizeT v)

/-- The array of `int`s at `p`. -/
def ints (m : Mem) (p i : Int) : Int := loadInt m (p + 4 * i)

variable {m m' : Mem} {p q : Int} {n k v : Nat}

/-! ## Loads and stores of bytes -/

theorem load_congr (h : ∀ a, p ≤ a → a < p + n → m' a = m a) : load m' p n = load m p n := by
  induction n generalizing p with
  | zero => rfl
  | succ n ih =>
    rw [load, load, h p (Int.le_refl p) (by omega), ih fun a hlo hhi => h a (by omega) (by omega)]

/-- Bytes that are those of a number. -/
theorem load_eq_of_bytes (h : ∀ i : Nat, i < n → m (p + i) = UInt8.ofNat (v / 256 ^ i)) :
    load m p n = v % 256 ^ n := by
  induction n generalizing p v with
  | zero => rw [load, Nat.pow_zero, Nat.mod_one]
  | succ n ih =>
    have hlow : (m p).toNat = v % 256 := by
      have := h 0 (by omega)
      rw [Int.natCast_zero, Int.add_zero, Nat.pow_zero, Nat.div_one] at this
      rw [this]
      exact UInt8.toNat_ofNat'
    have hrest : load m (p + 1) n = v / 256 % 256 ^ n := by
      refine ih fun i hi => ?_
      rw [Nat.div_div_eq_div_mul, ← Nat.pow_succ', ← h (i + 1) (by omega)]
      congr 1
      omega
    rw [load, hlow, hrest, Nat.pow_succ', Nat.mod_mul]

theorem load_store (m : Mem) (p : Int) (n v : Nat) : load (store m p n v) p n = v % 256 ^ n := by
  refine load_eq_of_bytes fun i hi => ?_
  unfold store
  rw [if_pos (by omega)]
  congr 3
  omega

theorem load_store_of_apart (h : q + n ≤ p ∨ p + k ≤ q) :
    load (store m p k v) q n = load m q n := by
  refine load_congr fun a hlo hhi => ?_
  unfold store
  rw [if_neg (by omega)]

theorem load_fill_of_apart {b : UInt8} (h : q + n ≤ p ∨ p + k ≤ q) :
    load (fill m p b k) q n = load m q n := by
  refine load_congr fun a hlo hhi => ?_
  unfold fill
  rw [if_neg (by omega)]

/-! ## `int`s and pointers -/

theorem loadInt_storeInt (m : Mem) (p : Int) {x : Int} (hx : InInt x) :
    loadInt (storeInt m p x) p = x := by
  have hlt := u32_lt x
  unfold loadInt storeInt
  rw [load_store, Nat.mod_eq_of_lt (by omega), i32_u32, i32_eq hx.1 hx.2]

theorem loadPtr_storePtr (m : Mem) (p : Int) {x : Int} (hlo : 0 ≤ x) (hhi : x < 2 ^ 64) :
    loadPtr (storePtr m p x) p = x := by
  unfold loadPtr storePtr sizeT
  rw [load_store, Nat.mod_eq_of_lt (by omega)]
  omega

theorem inInt_loadInt (m : Mem) (p : Int) : InInt (loadInt m p) := inInt_i32 _

theorem loadInt_storeInt_of_apart {x : Int} (h : q + 4 ≤ p ∨ p + 4 ≤ q) :
    loadInt (storeInt m p x) q = loadInt m q := by
  unfold loadInt storeInt
  rw [load_store_of_apart (by omega)]

theorem loadInt_storePtr_of_apart {x : Int} (h : q + 4 ≤ p ∨ p + 8 ≤ q) :
    loadInt (storePtr m p x) q = loadInt m q := by
  unfold loadInt storePtr
  rw [load_store_of_apart (by omega)]

theorem loadPtr_storeInt_of_apart {x : Int} (h : q + 8 ≤ p ∨ p + 4 ≤ q) :
    loadPtr (storeInt m p x) q = loadPtr m q := by
  unfold loadPtr storeInt
  rw [load_store_of_apart (by omega)]

theorem loadPtr_storePtr_of_apart {x : Int} (h : q + 8 ≤ p ∨ p + 8 ≤ q) :
    loadPtr (storePtr m p x) q = loadPtr m q := by
  unfold loadPtr storePtr
  rw [load_store_of_apart (by omega)]

theorem loadPtr_fill_of_apart {b : UInt8} (h : q + 8 ≤ p ∨ p + n ≤ q) :
    loadPtr (fill m p b n) q = loadPtr m q := by
  unfold loadPtr
  rw [load_fill_of_apart (by omega)]

/-- A store into an array of `int`s. -/
theorem ints_storeInt (m : Mem) (p i : Int) {x : Int} (hx : InInt x) :
    ints (storeInt m (p + 4 * i) x) p = Function.update (ints m p) i x := by
  funext j
  unfold ints
  by_cases hj : j = i
  · rw [hj, Function.update_self, loadInt_storeInt _ _ hx]
  · rw [Function.update_of_ne hj, loadInt_storeInt_of_apart (by omega)]

/-! ## What a store leaves -/

/-- The bytes of `r` are the same in both memories. -/
def SameOn (r : Region) (m m' : Mem) : Prop := ∀ a, r.Contains a → m' a = m a

theorem SameOn.refl (r : Region) (m : Mem) : SameOn r m m := fun _ _ => rfl

theorem SameOn.trans {r : Region} {m'' : Mem} (h : SameOn r m m') (h' : SameOn r m' m'') :
    SameOn r m m'' := fun a ha => (h' a ha).trans (h a ha)

theorem SameOn.loadInt {r : Region} (h : SameOn r m m') (hlo : r.base ≤ p)
    (hhi : p + 4 ≤ r.base + r.size) : loadInt m' p = loadInt m p := by
  unfold Memory.loadInt
  rw [load_congr fun a ha ha' => h a ⟨by omega, by omega⟩]

theorem SameOn.loadPtr {r : Region} (h : SameOn r m m') (hlo : r.base ≤ p)
    (hhi : p + 8 ≤ r.base + r.size) : loadPtr m' p = loadPtr m p := by
  unfold Memory.loadPtr
  rw [load_congr fun a ha ha' => h a ⟨by omega, by omega⟩]

theorem sameOn_storeInt {r : Region} {x : Int} (h : r.base + r.size ≤ p ∨ p + 4 ≤ r.base) :
    SameOn r m (storeInt m p x) := by
  intro a ⟨hlo, hhi⟩
  unfold storeInt store
  rw [if_neg (by omega)]

theorem sameOn_storePtr {r : Region} {x : Int} (h : r.base + r.size ≤ p ∨ p + 8 ≤ r.base) :
    SameOn r m (storePtr m p x) := by
  intro a ⟨hlo, hhi⟩
  unfold storePtr store
  rw [if_neg (by omega)]

theorem sameOn_fill {r : Region} {b : UInt8} (h : r.base + r.size ≤ p ∨ p + n ≤ r.base) :
    SameOn r m (fill m p b n) := by
  intro a ⟨hlo, hhi⟩
  unfold fill
  rw [if_neg (by omega)]

end Memory
