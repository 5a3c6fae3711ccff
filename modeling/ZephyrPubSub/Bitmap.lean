import Mathlib.Data.List.Basic
import Mathlib.Logic.Function.Basic

/-!
# Sets in an array of words

Bit `i` of an array of `w`-bit words is bit `i % w` of word `i / w`. No word
outside the array is read or written: an operation that would, has no result.
`Holds ws k p` says that the bits below `k` are those of the set `p`, which
`setBit` and `clearBit` update. `memset` writes bytes, in either byte order.
-/

namespace Bitmap

open Function

abbrev Words (n : Nat) := List (BitVec (n * 8))

def size (w k : Nat) : Nat := (k + (w - 1)) / w

theorem div_lt_size {w k i : Nat} (hw : 0 < w) (h : i < k) : i / w < size w k := by
  have hle : (i / w + 1) * w ≤ k + (w - 1) := by
    have := Nat.div_mul_le_self i w
    rw [Nat.add_one_mul]
    omega
  unfold size
  exact (Nat.le_div_iff_mul_le hw).mpr hle

section
variable {n : Nat} {ws ws' : Words n}

/-! ## Words and bits -/

def modifyWord (ws : Words n) (j : Nat) (f : BitVec (n * 8) → BitVec (n * 8)) : Option (Words n) :=
  if j < ws.length then some (ws.modify j f) else none

def testBit (ws : Words n) (i : Nat) : Option Bool :=
  ws[i / (n * 8)]?.map (·.getLsbD (i % (n * 8)))

def setBit (ws : Words n) (i : Nat) : Option (Words n) :=
  modifyWord ws (i / (n * 8)) (· ||| BitVec.twoPow _ (i % (n * 8)))

def clearBit (ws : Words n) (i : Nat) : Option (Words n) :=
  modifyWord ws (i / (n * 8)) (· &&& ~~~BitVec.twoPow _ (i % (n * 8)))

theorem modifyWord_some {j : Nat} {f : BitVec (n * 8) → BitVec (n * 8)} (h : modifyWord ws j f = some ws') :
    j < ws.length ∧ ws' = ws.modify j f := by
  unfold modifyWord at h
  split at h
  · exact ⟨‹_›, (Option.some.inj h).symm⟩
  · cases h

theorem length_modifyWord {j : Nat} {f : BitVec (n * 8) → BitVec (n * 8)} (h : modifyWord ws j f = some ws') :
    ws'.length = ws.length := by
  obtain ⟨-, rfl⟩ := modifyWord_some h
  exact List.length_modify ..

theorem testBit_modifyWord {j : Nat} {f : BitVec (n * 8) → BitVec (n * 8)} (h : modifyWord ws j f = some ws')
    (i : Nat) :
    testBit ws' i = if i / (n * 8) = j then ws[j]?.map fun u => (f u).getLsbD (i % (n * 8)) else testBit ws i := by
  obtain ⟨-, rfl⟩ := modifyWord_some h
  unfold testBit
  rw [List.getElem?_modify]
  by_cases hj : i / (n * 8) = j
  · subst hj
    simp [Option.map_map, Function.comp_def]
  · simp [hj, Ne.symm hj]

theorem lt_length_of_testBit {i : Nat} {b : Bool} (h : testBit ws i = some b) : i / (n * 8) < ws.length := by
  obtain ⟨u, hu, -⟩ := Option.map_eq_some_iff.mp h
  exact (List.getElem?_eq_some_iff.mp hu).1

/-- A change of word `i / w` that makes its bit `i % w` the bit `v`. -/
theorem testBit_put (hn : 0 < n) {i : Nat} {v : Bool} {f : BitVec (n * 8) → BitVec (n * 8)}
    (hf : ∀ u j, j < n * 8 → (f u).getLsbD j = if j = i % (n * 8) then v else u.getLsbD j)
    (h : modifyWord ws (i / (n * 8)) f = some ws') (j : Nat) :
    testBit ws' j = if j = i then some v else testBit ws j := by
  have hpos : 0 < n * 8 := Nat.mul_pos hn (by decide)
  rw [testBit_modifyWord h]
  by_cases hword : j / (n * 8) = i / (n * 8)
  · have hij : j % (n * 8) = i % (n * 8) ↔ j = i := by
      constructor
      · intro he
        rw [← Nat.div_add_mod j (n * 8), ← Nat.div_add_mod i (n * 8), hword, he]
      · intro he
        rw [he]
    obtain ⟨hlt, -⟩ := modifyWord_some h
    rw [if_pos hword, testBit, hword, List.getElem?_eq_getElem hlt]
    simp only [Option.map_some, hf _ _ (Nat.mod_lt j hpos), hij]
    split <;> rfl
  · have hij : j ≠ i := fun he => hword (by rw [he])
    rw [if_neg hword, if_neg hij]

theorem testBit_setBit (hn : 0 < n) {i : Nat} (h : setBit ws i = some ws') (j : Nat) :
    testBit ws' j = if j = i then some true else testBit ws j := by
  apply testBit_put hn _ h
  intro u j hj
  by_cases he : j = i % (n * 8)
  · simp [he, Nat.mod_lt i (Nat.mul_pos hn (by decide : 0 < 8))]
  · simp [he, Ne.symm he]

theorem testBit_clearBit (hn : 0 < n) {i : Nat} (h : clearBit ws i = some ws') (j : Nat) :
    testBit ws' j = if j = i then some false else testBit ws j := by
  apply testBit_put hn _ h
  intro u j hj
  by_cases he : j = i % (n * 8)
  · simp [he, Nat.mod_lt i (Nat.mul_pos hn (by decide : 0 < 8))]
  · simp [hj, he]

/-! ## Bytes -/

inductive ByteOrder where
  | little
  | big
  deriving DecidableEq, Repr

/-- The byte of a word, counted from the lowest one, that is at address `j` in the word. -/
def ByteOrder.lane (n : Nat) : ByteOrder → Nat → Nat
  | .little, j => j
  | .big, j => n - 1 - j

theorem ByteOrder.lane_lt (o : ByteOrder) {j : Nat} (h : j < n) : o.lane n j < n := by
  cases o with
  | little => exact h
  | big => simp only [lane]; omega

theorem ByteOrder.lane_lane (o : ByteOrder) {j : Nat} (h : j < n) : o.lane n (o.lane n j) = j := by
  cases o with
  | little => rfl
  | big => simp only [lane]; omega

def setByte (o : ByteOrder) (v : BitVec 8) (j : Nat) (u : BitVec (n * 8)) : BitVec (n * 8) :=
  u &&& ~~~((BitVec.allOnes 8).setWidth _ <<< (o.lane n j * 8)) ||| v.setWidth _ <<< (o.lane n j * 8)

def memset (o : ByteOrder) (v : BitVec 8) (ws : Words n) : Nat → Option (Words n)
  | 0 => some ws
  | len + 1 => (memset o v ws len).bind fun ws' => modifyWord ws' (len / n) (setByte o v (len % n))

/-- The address of the byte that has bit `i`. -/
def byteAddr (o : ByteOrder) (n i : Nat) : Nat := i / (n * 8) * n + o.lane n (i % (n * 8) / 8)

theorem getLsbD_setByte (o : ByteOrder) (v : BitVec 8) (j : Nat) (u : BitVec (n * 8)) {i : Nat} (hi : i < n * 8) :
    (setByte o v j u).getLsbD i = if i / 8 = o.lane n j then v.getLsbD (i % 8) else u.getLsbD i := by
  unfold setByte
  rw [BitVec.getLsbD_or, BitVec.getLsbD_and, BitVec.getLsbD_not, BitVec.getLsbD_shiftLeft, BitVec.getLsbD_shiftLeft,
    BitVec.getLsbD_setWidth, BitVec.getLsbD_setWidth, BitVec.getLsbD_allOnes]
  by_cases hl : i / 8 = o.lane n j
  · have hle : ¬ i < o.lane n j * 8 := by omega
    have hsub : i - o.lane n j * 8 = i % 8 := by omega
    have hlt : i % 8 < n * 8 := by omega
    have hlt' : i % 8 < 8 := Nat.mod_lt i (by decide)
    simp [hl, hi, hle, hsub, hlt, hlt']
  · rw [if_neg hl]
    by_cases hlt : i < o.lane n j * 8
    · simp [hi, hlt]
    · have hge : 8 ≤ i - o.lane n j * 8 := by omega
      simp [hi, BitVec.getLsbD_of_ge v _ hge, Nat.not_lt.mpr hge]

/-! ## Filling an array -/

theorem byteAddr_eq_iff (o : ByteOrder) {len i : Nat} (hn : 0 < n) :
    byteAddr o n i = len ↔ i / (n * 8) = len / n ∧ i % (n * 8) / 8 = o.lane n (len % n) := by
  have hj : i % (n * 8) / 8 < n := by
    have := Nat.mod_lt i (Nat.mul_pos hn (by decide : 0 < 8))
    omega
  have hl := o.lane_lt hj
  unfold byteAddr
  constructor
  · rintro rfl
    refine ⟨?_, ?_⟩
    · rw [Nat.add_comm, Nat.add_mul_div_right _ _ hn, Nat.div_eq_of_lt hl, Nat.zero_add]
    · rw [Nat.mul_add_mod', Nat.mod_eq_of_lt hl, o.lane_lane hj]
  · rintro ⟨hd, hm⟩
    rw [hd, hm, o.lane_lane (Nat.mod_lt len hn), Nat.mul_comm]
    exact Nat.div_add_mod len n

theorem testBit_setByte (o : ByteOrder) (v : BitVec 8) (hn : 0 < n) {addr : Nat}
    (h : modifyWord ws (addr / n) (setByte o v (addr % n)) = some ws') (i : Nat) :
    testBit ws' i = if byteAddr o n i = addr then some (v.getLsbD (i % 8)) else testBit ws i := by
  have hi := Nat.mod_lt i (Nat.mul_pos hn (by decide : 0 < 8))
  obtain ⟨hlt, -⟩ := modifyWord_some h
  rw [testBit_modifyWord h]
  simp only [byteAddr_eq_iff o hn]
  by_cases hword : i / (n * 8) = addr / n
  · rw [if_pos hword, testBit, hword, List.getElem?_eq_getElem hlt, Option.map_some, Option.map_some,
      getLsbD_setByte _ _ _ _ hi, Nat.mod_mod_of_dvd i (Nat.dvd_mul_left 8 n)]
    by_cases hl : i % (n * 8) / 8 = o.lane n (addr % n)
    · rw [if_pos hl, if_pos ⟨rfl, hl⟩]
    · rw [if_neg hl, if_neg fun he => hl he.2]
  · rw [if_neg hword, if_neg fun he => hword he.1]

/-- `memset` sets the bytes below `len` and leaves the others as they were. -/
theorem memset_spec (o : ByteOrder) (v : BitVec 8) (hn : 0 < n) : ∀ len, len ≤ ws.length * n →
    ∃ ws', memset o v ws len = some ws' ∧ ws'.length = ws.length ∧
      ∀ i, testBit ws' i = if byteAddr o n i < len then some (v.getLsbD (i % 8)) else testBit ws i
  | 0, _ => ⟨ws, rfl, rfl, fun _ => rfl⟩
  | len + 1, h => by
    obtain ⟨ws₁, h₁, hlen, hbits⟩ := memset_spec o v hn len (by omega)
    have hlt : len / n < ws₁.length := by
      rw [hlen, Nat.div_lt_iff_lt_mul hn]
      omega
    have h₂ : modifyWord ws₁ (len / n) (setByte o v (len % n)) = some _ := if_pos hlt
    refine ⟨_, by rw [memset, h₁]; exact h₂, (length_modifyWord h₂).trans hlen, ?_⟩
    intro i
    rw [testBit_setByte o v hn h₂, hbits]
    by_cases he : byteAddr o n i = len
    · rw [if_pos he, if_pos (by omega)]
    · have hlt' : byteAddr o n i < len + 1 ↔ byteAddr o n i < len := by omega
      simp only [if_neg he, hlt']

theorem byteAddr_lt (o : ByteOrder) (hn : 0 < n) {m i : Nat} (h : i / (n * 8) < m) : byteAddr o n i < m * n := by
  have hi := Nat.mod_lt i (Nat.mul_pos hn (by decide : 0 < 8))
  have hl : o.lane n (i % (n * 8) / 8) < n := o.lane_lt (by omega)
  unfold byteAddr
  calc i / (n * 8) * n + o.lane n (i % (n * 8) / 8)
    _ < i / (n * 8) * n + n := Nat.add_lt_add_left hl _
    _ = (i / (n * 8) + 1) * n := (Nat.add_one_mul ..).symm
    _ ≤ m * n := Nat.mul_le_mul_right n h

/-! ## Sets -/

variable {α : Type*} {index : α → Nat} {D : α → Prop} {p : α → Bool}

/-- For each `a` in `D` the array has bit `index a`, which is set exactly when `a` is in `p`. -/
def Holds (ws : Words n) (index : α → Nat) (D : α → Prop) (p : α → Bool) : Prop :=
  ∀ a, D a → testBit ws (index a) = some (p a)

theorem holds_memset (o : ByteOrder) (hn : 0 < n) {k : Nat} (hlen : ws.length = size (n * 8) k)
    (hD : ∀ a, D a → index a < k) :
    ∃ ws', memset o 0#8 ws (size (n * 8) k * n) = some ws' ∧ Holds ws' index D fun _ => false := by
  have hle : size (n * 8) k * n ≤ ws.length * n := Nat.le_of_eq (congrArg (· * n) hlen.symm)
  obtain ⟨ws', h, -, hbits⟩ := memset_spec o 0#8 hn _ hle
  refine ⟨ws', h, ?_⟩
  intro a ha
  have hlt := byteAddr_lt o hn (div_lt_size (Nat.mul_pos hn (by decide)) (hD a ha))
  rw [hbits, if_pos hlt, BitVec.getLsbD_zero]

variable [DecidableEq α]

theorem Holds.put (hinj : Injective index) (h : Holds ws index D p) {a : α} {v : Bool}
    (hput : ∀ j, testBit ws' j = if j = index a then some v else testBit ws j) :
    Holds ws' index D (update p a v) := by
  intro b hb
  rw [hput]
  by_cases he : b = a
  · subst he
    rw [if_pos rfl, update_self]
  · rw [if_neg fun hi => he (hinj hi), update_of_ne he, h b hb]

theorem Holds.setBit (hn : 0 < n) (hinj : Injective index) (h : Holds ws index D p) {a : α} (ha : D a) :
    ∃ ws', setBit ws (index a) = some ws' ∧ Holds ws' index D (update p a true) := by
  have hs : Bitmap.setBit ws (index a) = some _ := if_pos (lt_length_of_testBit (h a ha))
  exact ⟨_, hs, h.put hinj (testBit_setBit hn hs)⟩

theorem Holds.clearBit (hn : 0 < n) (hinj : Injective index) (h : Holds ws index D p) {a : α} (ha : D a) :
    ∃ ws', clearBit ws (index a) = some ws' ∧ Holds ws' index D (update p a false) := by
  have hs : Bitmap.clearBit ws (index a) = some _ := if_pos (lt_length_of_testBit (h a ha))
  exact ⟨_, hs, h.put hinj (testBit_clearBit hn hs)⟩

end

end Bitmap
