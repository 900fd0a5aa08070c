import Mathlib.Data.Nat.Digits.Lemmas

/-!
# Byte orders

An unsigned number below `256 ^ w` is held in `w` bytes, its base-256 digits, with the least
significant one first (little-endian) or last (big-endian). This file defines both layouts on lists
of bytes, on top of `Nat.ofDigits` and `Nat.digitsAppend`, and the change from one to the other.

## Main definitions

* `ByteOrder`: little-endian or big-endian.
* `ByteOrder.load`, `ByteOrder.store`: the number that a list of bytes holds, and the bytes that
  hold a number.
* `ByteOrder.toNetwork`: the conversion between a byte order and the big-endian network order.
* `ByteOrder.loadWord`, `ByteOrder.storeWord`, `ByteOrder.networkWord`: the same on 32-bit words.

## Main results

* `ByteOrder.load_store`, `ByteOrder.store_load`: the two are inverse to each other.
* `ByteOrder.store_toNetwork`, `ByteOrder.toNetwork_load`.
-/

/-- The order in which the bytes of a number stand in memory. -/
inductive ByteOrder
  | little
  | big
  deriving DecidableEq, Repr

namespace ByteOrder

/-- Bytes given from the least significant one on, in the order of `o`, and back. -/
def arrange {α : Type*} : ByteOrder → List α → List α
  | little, bs => bs
  | big, bs => bs.reverse

@[simp] theorem arrange_arrange {α : Type*} (o : ByteOrder) (bs : List α) :
    o.arrange (o.arrange bs) = bs := by
  cases o <;> simp [arrange]

@[simp] theorem length_arrange {α : Type*} (o : ByteOrder) (bs : List α) :
    (o.arrange bs).length = bs.length := by
  cases o <;> simp [arrange]

/-- The number that the bytes `bs` hold in the order `o`. -/
def load (o : ByteOrder) (bs : List UInt8) : ℕ :=
  Nat.ofDigits 256 ((o.arrange bs).map UInt8.toNat)

/-- The `w` bytes that hold the number `n` in the order `o`. -/
def store (o : ByteOrder) (w n : ℕ) : List UInt8 :=
  o.arrange ((Nat.digitsAppend 256 w n).map UInt8.ofNat)

variable (o : ByteOrder) {w n : ℕ} {bs : List UInt8}

private theorem map_toNat_map_ofNat {L : List ℕ} (h : ∀ x ∈ L, x < 256) :
    (L.map UInt8.ofNat).map UInt8.toNat = L := by
  rw [List.map_map]
  refine (List.map_congr_left fun x hx => ?_).trans (List.map_id L)
  exact UInt8.toNat_ofNat_of_lt' (h x hx)

private theorem lt_of_mem_map_toNat {l : List UInt8} {x : ℕ} (hx : x ∈ l.map UInt8.toNat) :
    x < 256 := by
  obtain ⟨b, -, rfl⟩ := List.mem_map.mp hx
  exact b.toNat_lt

theorem load_lt (bs : List UInt8) : o.load bs < 256 ^ bs.length := by
  have h := Nat.ofDigits_lt_base_pow_length (b := 256) (by decide)
    (fun x hx => lt_of_mem_map_toNat (l := o.arrange bs) hx)
  simpa [load] using h

theorem length_store (hn : n < 256 ^ w) : (o.store w n).length = w := by
  simp [store, Nat.length_digitsAppend (by decide : 1 < 256) w hn]

/-- Loading what was stored gives back the number. -/
@[simp] theorem load_store (w n : ℕ) : o.load (o.store w n) = n := by
  rw [load, store, arrange_arrange,
    map_toNat_map_ofNat fun x hx => Nat.lt_of_mem_digitsAppend (by decide) w x hx,
    Nat.digitsAppend, Nat.ofDigits_append_replicate_zero, Nat.ofDigits_digits]

/-- Storing what was loaded gives back the bytes. -/
theorem store_load (hbs : bs.length = w) : o.store w (o.load bs) = bs := by
  have hinv := (Nat.setInvOn_digitsAppend_ofDigits (b := 256) (by decide) w).1
    (x := (o.arrange bs).map UInt8.toNat) ⟨by simpa using hbs, fun x => lt_of_mem_map_toNat⟩
  have hid : UInt8.ofNat ∘ UInt8.toNat = id := funext fun b => UInt8.ofNat_toNat
  rw [store, load, hinv, List.map_map, hid, List.map_id, arrange_arrange]

/-! ### Network order -/

/-- The number whose `w` bytes are those of `n` in reverse. -/
def byteSwap (w n : ℕ) : ℕ := little.load (little.store w n).reverse

/-- The conversion between the byte order `o` and the big-endian network order: the bytes are
swapped where the two differ. -/
def toNetwork : ByteOrder → ℕ → ℕ → ℕ
  | little, w, n => byteSwap w n
  | big, _, n => n

/-- After the conversion the memory image is big-endian, whatever the byte order is. -/
theorem store_toNetwork (hn : n < 256 ^ w) : o.store w (o.toNetwork w n) = big.store w n := by
  cases o with
  | little => exact little.store_load (by simp [little.length_store hn])
  | big => rfl

/-- Bytes read in the order `o` and then converted give the number that they hold big-endian. -/
theorem toNetwork_load (hbs : bs.length = w) : o.toNetwork w (o.load bs) = big.load bs := by
  cases o with
  | little => rw [toNetwork, byteSwap, little.store_load hbs]; rfl
  | big => rfl

theorem toNetwork_lt (hn : n < 256 ^ w) : o.toNetwork w n < 256 ^ w := by
  cases o with
  | little =>
    have h := little.load_lt (little.store w n).reverse
    rwa [List.length_reverse, little.length_store hn] at h
  | big => exact hn

/-! ### Words of 32 bits -/

/-- The 32-bit word that four bytes hold. -/
def loadWord (bs : List UInt8) : UInt32 := UInt32.ofNat (o.load bs)

/-- The four bytes that hold a 32-bit word. -/
def storeWord (v : UInt32) : List UInt8 := o.store 4 v.toNat

variable (v : UInt32)

@[simp] theorem length_storeWord : (o.storeWord v).length = 4 := o.length_store v.toNat_lt

@[simp] theorem loadWord_storeWord : o.loadWord (o.storeWord v) = v := by
  rw [loadWord, storeWord, load_store, UInt32.ofNat_toNat]

private theorem toNat_loadWord (hbs : bs.length = 4) : (o.loadWord bs).toNat = o.load bs := by
  have h := o.load_lt bs
  rw [hbs] at h
  exact UInt32.toNat_ofNat_of_lt' h

theorem storeWord_loadWord (hbs : bs.length = 4) : o.storeWord (o.loadWord bs) = bs := by
  rw [storeWord, o.toNat_loadWord hbs, o.store_load hbs]

/-- A 32-bit word converted between the byte order `o` and the network order. -/
def networkWord : UInt32 := UInt32.ofNat (o.toNetwork 4 v.toNat)

/-- Big-endian words are in network order. -/
@[simp] theorem networkWord_big : big.networkWord v = v := UInt32.ofNat_toNat

private theorem toNat_networkWord : (o.networkWord v).toNat = o.toNetwork 4 v.toNat :=
  UInt32.toNat_ofNat_of_lt' (o.toNetwork_lt v.toNat_lt)

theorem storeWord_networkWord : o.storeWord (o.networkWord v) = big.storeWord v := by
  rw [storeWord, toNat_networkWord, o.store_toNetwork v.toNat_lt, storeWord]

theorem networkWord_loadWord (hbs : bs.length = 4) :
    o.networkWord (o.loadWord bs) = big.loadWord bs := by
  rw [networkWord, o.toNat_loadWord hbs, o.toNetwork_load hbs, loadWord]

end ByteOrder
