/-!
# Reading fields of a message

A message is a list of bytes. A read at or behind its end has no result; what a parser
reads in sequence has one exactly if every read on the way does.
-/

namespace EponaOS

abbrev Msg := List UInt8

namespace Msg

def get8 (f : Msg) (i : Nat) : Option Nat := (f[i]?).map UInt8.toNat

def get16 (f : Msg) (i : Nat) : Option Nat := do
  let hi ← get8 f i
  let lo ← get8 f (i + 1)
  return 256 * hi + lo

def get32 (f : Msg) (i : Nat) : Option Nat := do
  let hi ← get16 f i
  let lo ← get16 f (i + 2)
  return 65536 * hi + lo

def load32 (f : Msg) (i : Nat) : Option Nat := do
  let b0 ← get8 f i
  let b1 ← get8 f (i + 1)
  let b2 ← get8 f (i + 2)
  let b3 ← get8 f (i + 3)
  return b0 + 256 * (b1 + 256 * (b2 + 256 * b3))

def getBytes (f : Msg) (i n : Nat) : Option Msg :=
  if n = 0 ∨ i + n ≤ f.length then some ((f.drop i).take n) else none

variable {f : Msg} {i n v : Nat}

theorem get8_of_lt (h : i < f.length) : get8 f i = some f[i].toNat := by
  simp [get8, h]

theorem get8_isSome : (get8 f i).isSome ↔ i < f.length := by
  simp [get8]

theorem bind_isSome {α β : Type} {x : Option α} {g : α → Option β} :
    (x >>= g).isSome ↔ ∃ a, x = some a ∧ (g a).isSome := by
  cases x <;> simp

theorem get16_isSome : (get16 f i).isSome ↔ i + 2 ≤ f.length := by
  simp only [get16, bind_isSome]
  constructor
  · rintro ⟨_, _, _, h, _⟩
    have := get8_isSome.mp (Option.isSome_of_eq_some h)
    omega
  · intro h
    exact ⟨_, get8_of_lt (by omega), _, get8_of_lt (by omega), rfl⟩

theorem get32_isSome : (get32 f i).isSome ↔ i + 4 ≤ f.length := by
  simp only [get32, bind_isSome]
  constructor
  · rintro ⟨_, _, _, h, _⟩
    have := get16_isSome.mp (Option.isSome_of_eq_some h)
    omega
  · intro h
    obtain ⟨a, ha⟩ := Option.isSome_iff_exists.mp (get16_isSome.mpr (show i + 2 ≤ f.length by omega))
    obtain ⟨b, hb⟩ := Option.isSome_iff_exists.mp
      (get16_isSome.mpr (show i + 2 + 2 ≤ f.length by omega))
    exact ⟨a, ha, b, hb, rfl⟩

theorem load32_isSome : (load32 f i).isSome ↔ i + 4 ≤ f.length := by
  simp only [load32, bind_isSome]
  constructor
  · rintro ⟨_, _, _, _, _, _, _, h, _⟩
    have := get8_isSome.mp (Option.isSome_of_eq_some h)
    omega
  · intro h
    exact ⟨_, get8_of_lt (by omega), _, get8_of_lt (by omega), _, get8_of_lt (by omega), _,
      get8_of_lt (by omega), rfl⟩

theorem getBytes_isSome : (getBytes f i n).isSome ↔ n = 0 ∨ i + n ≤ f.length := by
  rw [getBytes]
  split <;> simp_all

-- ---------------------------------------------------------------------------
-- Fields by value
-- ---------------------------------------------------------------------------

def byteAt (f : Msg) (i : Nat) : Nat := (get8 f i).getD 0
def wordAt (f : Msg) (i : Nat) : Nat := (get16 f i).getD 0
def dwordAt (f : Msg) (i : Nat) : Nat := (get32 f i).getD 0
def loadAt (f : Msg) (i : Nat) : Nat := (load32 f i).getD 0

theorem bind_isSome_getD {x : Option α} {g : α → Option β} (a : α) :
    (x >>= g).isSome ↔ x.isSome ∧ (g (x.getD a)).isSome := by
  cases x <;> simp

theorem get8_bind {g : Nat → Option β} :
    (get8 f i >>= g).isSome ↔ i < f.length ∧ (g (byteAt f i)).isSome := by
  rw [bind_isSome_getD 0, get8_isSome, byteAt]

theorem get16_bind {g : Nat → Option β} :
    (get16 f i >>= g).isSome ↔ i + 2 ≤ f.length ∧ (g (wordAt f i)).isSome := by
  rw [bind_isSome_getD 0, get16_isSome, wordAt]

theorem get32_bind {g : Nat → Option β} :
    (get32 f i >>= g).isSome ↔ i + 4 ≤ f.length ∧ (g (dwordAt f i)).isSome := by
  rw [bind_isSome_getD 0, get32_isSome, dwordAt]

theorem load32_bind {g : Nat → Option β} :
    (load32 f i >>= g).isSome ↔ i + 4 ≤ f.length ∧ (g (loadAt f i)).isSome := by
  rw [bind_isSome_getD 0, load32_isSome, loadAt]

theorem getBytes_bind {g : Msg → Option β} :
    (getBytes f i n >>= g).isSome ↔
      (n = 0 ∨ i + n ≤ f.length) ∧ (g ((getBytes f i n).getD [])).isSome := by
  rw [bind_isSome_getD [], getBytes_isSome]

theorem ite_isSome {c : Prop} [Decidable c] {x y : Option α} :
    (if c then x else y).isSome ↔ (c → x.isSome) ∧ (¬c → y.isSome) := by
  split <;> simp_all

-- ---------------------------------------------------------------------------
-- Bytes at an offset
-- ---------------------------------------------------------------------------

def HasAt (f : Msg) (i : Nat) (bs : Msg) : Prop := bs <+: f.drop i

variable {a b bs : Msg} {x y : UInt8}

theorem hasAt_append_self (a bs b : Msg) : HasAt (a ++ bs ++ b) a.length bs :=
  ⟨b, by rw [List.append_assoc, List.drop_left]⟩

theorem hasAt_nil (f : Msg) (i : Nat) : HasAt f i [] := List.nil_prefix

theorem hasAt_cons : HasAt f i (x :: bs) ↔ f[i]? = some x ∧ HasAt f (i + 1) bs := by
  rw [HasAt, HasAt, ← List.drop_drop, ← List.head?_drop]
  cases f.drop i with
  | nil => simp
  | cons y rest =>
    rw [List.cons_prefix_cons, List.head?_cons, Option.some_inj, List.drop_succ_cons, List.drop_zero]
    exact and_congr_left fun _ => eq_comm

theorem hasAt_append : HasAt f i (a ++ b) ↔ HasAt f i a ∧ HasAt f (i + a.length) b := by
  induction a generalizing i with
  | nil => simp [hasAt_nil]
  | cons x a ih =>
    rw [List.cons_append, hasAt_cons, hasAt_cons, ih, List.length_cons, and_assoc,
      Nat.add_right_comm, Nat.add_assoc]

theorem HasAt.get8 (h : HasAt f i (x :: bs)) : get8 f i = some x.toNat := by
  rw [Msg.get8, (hasAt_cons.mp h).1, Option.map_some]

theorem HasAt.get16 (h : HasAt f i (x :: y :: bs)) :
    get16 f i = some (256 * x.toNat + y.toNat) := by
  rw [Msg.get16, h.get8, (hasAt_cons.mp h).2.get8]
  rfl

-- ---------------------------------------------------------------------------
-- The same bytes in two messages
-- ---------------------------------------------------------------------------

/-- The `n` bytes at `i` of the one message are those at `i'` of the other. -/
def SameBytes (f : Msg) (i : Nat) (f' : Msg) (i' n : Nat) : Prop :=
  ∀ j < n, f[i + j]? = f'[i' + j]?

theorem SameBytes.get8 (h : SameBytes f i f' i' n) (hj : j < n) :
    get8 f (i + j) = get8 f' (i' + j) := by
  rw [Msg.get8, Msg.get8, h j hj]

theorem SameBytes.get16 (h : SameBytes f i f' i' n) (hj : j + 2 ≤ n) :
    get16 f (i + j) = get16 f' (i' + j) := by
  rw [Msg.get16, Msg.get16, h.get8 (by omega), Nat.add_assoc, Nat.add_assoc, h.get8 (by omega)]

theorem SameBytes.load32 (h : SameBytes f i f' i' n) (hj : j + 4 ≤ n) :
    load32 f (i + j) = load32 f' (i' + j) := by
  simp only [Msg.load32, Nat.add_assoc]
  rw [h.get8 (by omega), h.get8 (by omega), h.get8 (by omega), h.get8 (by omega)]

theorem sameBytes_of_hasAt {m : Msg} (h : HasAt f i m) (h' : HasAt f' i' m) :
    SameBytes f i f' i' m.length := by
  have hget : ∀ {f : Msg} {i : Nat}, HasAt f i m → ∀ j < m.length, f[i + j]? = m[j]? := by
    rintro f i ⟨rest, hrest⟩ j hj
    rw [← List.getElem?_drop, ← hrest, List.getElem?_append_left hj]
  intro j hj
  rw [hget h j hj, hget h' j hj]

end Msg
end EponaOS
