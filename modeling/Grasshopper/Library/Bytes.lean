import Mathlib.Tactic.Ring
import Mathlib.Tactic.NormNum
import Mathlib.Data.List.Basic
import Mathlib.Data.Nat.Digits.Lemmas

/-! # Records of bytes

Numbers of a fixed width in either byte order, parts of a sequence of bytes, and records of a fixed
size whose fields are such numbers. Writing a field changes no byte outside it.
-/

namespace Bytes

/-! ## Numbers -/

/-- The number with the given bytes, the lowest one first. -/
def number (bs : List UInt8) : ℕ := Nat.ofDigits 256 (bs.map UInt8.toNat)

/-- The lowest `n` bytes of a number, the lowest one first. -/
def digits : ℕ → ℕ → List UInt8
  | 0, _ => []
  | n + 1, v => UInt8.ofNat (v % 256) :: digits n (v / 256)

@[simp] theorem length_digits (n v : ℕ) : (digits n v).length = n := by
  induction n generalizing v with
  | zero => rfl
  | succ n ih => simp [digits, ih]

theorem number_lt (bs : List UInt8) : number bs < 256 ^ bs.length := by
  have h := Nat.ofDigits_lt_base_pow_length (b := 256) (l := bs.map UInt8.toNat) (by norm_num)
    (by simpa using fun b _ => b.toNat_lt)
  simpa [number] using h

theorem number_digits (n v : ℕ) : number (digits n v) = v % 256 ^ n := by
  induction n generalizing v with
  | zero => simp [digits, number, Nat.mod_one]
  | succ n ih =>
    have hlow : (UInt8.ofNat (v % 256)).toNat = v % 256 := by simp
    have hcons : number (digits (n + 1) v) = v % 256 + 256 * number (digits n (v / 256)) := by
      simp only [number, digits, List.map_cons, Nat.ofDigits_cons, hlow]
    rw [hcons, ih, pow_succ', Nat.mod_mul]

theorem number_injective {bs bs' : List UInt8} (hlen : bs.length = bs'.length)
    (h : number bs = number bs') : bs = bs' := by
  have hmap : bs.map UInt8.toNat = bs'.map UInt8.toNat :=
    Nat.ofDigits_inj_of_len_eq (by norm_num) (by simpa using hlen)
      (by simpa using fun b _ => b.toNat_lt) (by simpa using fun b _ => b.toNat_lt) h
  exact List.map_injective_iff.mpr (fun _ _ => UInt8.toNat_inj.mp) hmap

theorem digits_number (bs : List UInt8) : digits bs.length (number bs) = bs :=
  number_injective (length_digits _ _)
    (by rw [number_digits, Nat.mod_eq_of_lt (number_lt bs)])

inductive Order where
  | little | big
deriving DecidableEq

namespace Order

def flip : Order → Order
  | little => big
  | big => little

/-- The bytes in the order from the lowest on, or back from it. -/
def arrange (o : Order) (bs : List UInt8) : List UInt8 :=
  match o with
  | little => bs
  | big => bs.reverse

@[simp] theorem length_arrange (o : Order) (bs : List UInt8) :
    (o.arrange bs).length = bs.length := by
  cases o <;> simp [arrange]

@[simp] theorem arrange_arrange (o : Order) (bs : List UInt8) : o.arrange (o.arrange bs) = bs := by
  cases o <;> simp [arrange]

theorem arrange_flip (o : Order) (bs : List UInt8) :
    o.flip.arrange bs = (o.arrange bs).reverse := by
  cases o <;> simp [arrange, flip]

/-- The number that stands in some bytes. -/
def load (o : Order) (bs : List UInt8) : ℕ := number (o.arrange bs)

/-- The `n` bytes in which a number stands. -/
def store (o : Order) (n v : ℕ) : List UInt8 := o.arrange (digits n v)

@[simp] theorem length_store (o : Order) (n v : ℕ) : (o.store n v).length = n := by simp [store]

theorem load_lt (o : Order) (bs : List UInt8) : o.load bs < 256 ^ bs.length := by
  simpa [load] using number_lt (o.arrange bs)

theorem load_store (o : Order) (n v : ℕ) : o.load (o.store n v) = v % 256 ^ n := by
  simp [load, store, number_digits]

end Order

/-- The number with the bytes of an `n`-byte number the other way round. -/
def bswap (n v : ℕ) : ℕ := number (digits n v).reverse

theorem bswap_load (o : Order) (bs : List UInt8) :
    bswap bs.length (o.load bs) = o.flip.load bs := by
  have h := digits_number (o.arrange bs)
  rw [Order.length_arrange] at h
  rw [bswap, Order.load, h, Order.load, o.arrange_flip]

theorem store_bswap (o : Order) (n v : ℕ) : o.store n (bswap n v) = o.flip.store n v := by
  have h := digits_number (digits n v).reverse
  rw [List.length_reverse, length_digits] at h
  rw [bswap, Order.store, h, Order.store]
  cases o <;> simp [Order.arrange, Order.flip]

/-! ## Parts of a sequence -/

section Slices
variable {α : Type}

/-- The `n` bytes from `off` on, or those that are there. -/
def slice (bs : List α) (off n : ℕ) : List α := (bs.drop off).take n

/-- The sequence with other bytes from `off` on. -/
def overwrite (bs : List α) (off : ℕ) (new : List α) : List α :=
  bs.take off ++ new ++ bs.drop (off + new.length)

theorem length_slice {bs : List α} {off n : ℕ} (h : off + n ≤ bs.length) :
    (slice bs off n).length = n := by
  simp only [slice, List.length_take, List.length_drop]
  omega

theorem getElem?_slice (bs : List α) (off n i : ℕ) :
    (slice bs off n)[i]? = if i < n then bs[off + i]? else none := by
  simp only [slice, List.getElem?_take, List.getElem?_drop]

theorem slice_congr {bs bs' : List α} {off n : ℕ}
    (h : ∀ q, off ≤ q → q < off + n → bs[q]? = bs'[q]?) : slice bs off n = slice bs' off n := by
  apply List.ext_getElem?
  intro i
  rw [getElem?_slice, getElem?_slice]
  split_ifs
  · exact h (off + i) (by omega) (by omega)
  · rfl

theorem slice_slice (bs : List α) {off n off' n' : ℕ} (h : off' + n' ≤ n) :
    slice (slice bs off n) off' n' = slice bs (off + off') n' := by
  apply List.ext_getElem?
  intro i
  simp only [getElem?_slice]
  split_ifs
  · rw [Nat.add_assoc]
  · omega
  · rfl

theorem length_overwrite {bs new : List α} {off : ℕ} (h : off + new.length ≤ bs.length) :
    (overwrite bs off new).length = bs.length := by
  simp only [overwrite, List.length_append, List.length_take, List.length_drop]
  omega

theorem getElem?_overwrite {bs new : List α} {off : ℕ} (h : off + new.length ≤ bs.length) (i : ℕ) :
    (overwrite bs off new)[i]? =
      if off ≤ i ∧ i < off + new.length then new[i - off]? else bs[i]? := by
  simp only [overwrite, List.getElem?_append, List.length_append, List.length_take,
    List.getElem?_take, List.getElem?_drop]
  have hmin : min off bs.length = off := by omega
  rw [hmin]
  split_ifs with h1 h2 h3 h4 h5
  · omega
  · rfl
  · rfl
  · omega
  · omega
  · congr 1; omega

theorem slice_overwrite {bs new : List α} {off : ℕ} (h : off + new.length ≤ bs.length) :
    slice (overwrite bs off new) off new.length = new := by
  apply List.ext_getElem?
  intro i
  rw [getElem?_slice, getElem?_overwrite h]
  split_ifs with h1 h2
  · congr 1; omega
  · omega
  · rw [List.getElem?_eq_none (by omega)]

theorem slice_overwrite_of_disjoint {bs new : List α} {off off' n : ℕ}
    (h : off + new.length ≤ bs.length) (hd : off' + n ≤ off ∨ off + new.length ≤ off') :
    slice (overwrite bs off new) off' n = slice bs off' n := by
  apply List.ext_getElem?
  intro i
  rw [getElem?_slice, getElem?_slice, getElem?_overwrite h]
  split_ifs with h1 h2
  · omega
  · rfl
  · rfl

/-- Sequences of `n` bytes one after the other, at a byte of one of them. -/
theorem getElem?_flatten {ls : List (List α)} {n : ℕ} (h : ∀ l ∈ ls, l.length = n) (i : ℕ) {r : ℕ}
    (hr : r < n) : ls.flatten[i * n + r]? = ls[i]?.bind (·[r]?) := by
  induction ls generalizing i with
  | nil => simp
  | cons l ls ih =>
    have hl := h l List.mem_cons_self
    cases i with
    | zero =>
      rw [Nat.zero_mul, Nat.zero_add, List.flatten_cons, List.getElem?_append_left (by omega)]
      rfl
    | succ i =>
      have hle : l.length ≤ (i + 1) * n + r := by rw [hl, Nat.succ_mul]; omega
      have hsub : (i + 1) * n + r - l.length = i * n + r := by rw [hl, Nat.succ_mul]; omega
      rw [List.flatten_cons, List.getElem?_append_right hle, hsub,
        ih fun l' hl' => h l' (List.mem_cons_of_mem _ hl')]
      rfl

theorem length_flatten {ls : List (List α)} {n : ℕ} (h : ∀ l ∈ ls, l.length = n) :
    ls.flatten.length = ls.length * n := by
  induction ls with
  | nil => simp
  | cons l ls ih =>
    rw [List.flatten_cons, List.length_append, h l List.mem_cons_self,
      ih fun l' hl' => h l' (List.mem_cons_of_mem _ hl'), List.length_cons, Nat.succ_mul]
    omega

end Slices

/-! ## Records -/

/-- A record of `n` bytes. -/
structure Record (n : ℕ) where
  bytes : List UInt8
  length_eq : bytes.length = n
deriving DecidableEq

namespace Record
variable {n : ℕ}

/-- The record with the given bytes, if there are as many as it has. -/
def ofBytes? (n : ℕ) (bs : List UInt8) : Option (Record n) :=
  if h : bs.length = n then some ⟨bs, h⟩ else none

theorem ofBytes?_eq_some {bs : List UInt8} {r : Record n} :
    ofBytes? n bs = some r ↔ r.bytes = bs := by
  unfold ofBytes?
  split_ifs with h
  · rw [Option.some_inj]
    exact ⟨fun hr => hr ▸ rfl, fun hr => by cases r; cases hr; rfl⟩
  · exact ⟨nofun, fun hr => absurd (hr ▸ r.length_eq) h⟩

/-- `k` records one after the other. -/
def parse (n : ℕ) : ℕ → List UInt8 → Option (List (Record n))
  | 0, _ => some []
  | k + 1, bs => do
    let r ← ofBytes? n (bs.take n)
    let rs ← parse n k (bs.drop n)
    return r :: rs

/-- The bytes of records one after the other. -/
def flatten (rs : List (Record n)) : List UInt8 := (rs.map bytes).flatten

theorem length_flatten (rs : List (Record n)) : (flatten rs).length = rs.length * n := by
  have hall : ∀ l ∈ rs.map bytes, l.length = n := by simpa using fun r _ => r.length_eq
  simpa [flatten] using Bytes.length_flatten hall

theorem getElem?_flatten (rs : List (Record n)) (i : ℕ) {q : ℕ} (hq : q < n) :
    (flatten rs)[i * n + q]? = rs[i]?.bind (·.bytes[q]?) := by
  have hall : ∀ l ∈ rs.map bytes, l.length = n := by simpa using fun r _ => r.length_eq
  rw [flatten, Bytes.getElem?_flatten hall i hq, List.getElem?_map]
  cases rs[i]? <;> rfl

theorem parse_eq_some {k : ℕ} {bs : List UInt8} {rs : List (Record n)}
    (h : parse n k bs = some rs) : rs.length = k ∧ bs.take (k * n) = flatten rs := by
  induction k generalizing bs rs with
  | zero =>
    obtain rfl := Option.some_inj.mp h
    simp [flatten]
  | succ k ih =>
    simp only [parse, Option.bind_eq_bind, Option.bind_eq_some_iff] at h
    obtain ⟨r, hr, rs', hrs, h⟩ := h
    obtain rfl := Option.some_inj.mp h
    have hbytes := ofBytes?_eq_some.mp hr
    obtain ⟨hlen, htake⟩ := ih hrs
    refine ⟨by simp [hlen], ?_⟩
    rw [Nat.succ_mul, Nat.add_comm, List.take_add, htake, ← hbytes]
    rfl

theorem slice_of_parse {k : ℕ} {bs : List UInt8} {rs : List (Record n)}
    (h : parse n k bs = some rs) {i : ℕ} {r : Record n} (hr : rs[i]? = some r) :
    r.bytes = slice bs (i * n) n := by
  obtain ⟨hlen, htake⟩ := parse_eq_some h
  have hi : i < k := hlen ▸ (List.getElem?_eq_some_iff.mp hr).1
  apply List.ext_getElem?
  intro q
  rw [getElem?_slice]
  split_ifs with hq
  · have hpos : i * n + q < k * n := by
      calc i * n + q < i * n + n := by omega
        _ = (i + 1) * n := by rw [Nat.succ_mul]
        _ ≤ k * n := Nat.mul_le_mul_right n hi
    have hget := getElem?_flatten rs i hq
    rw [hr, ← htake, List.getElem?_take_of_lt hpos] at hget
    exact hget.symm
  · exact List.getElem?_eq_none (by rw [r.length_eq]; omega)

end Record

/-- A field of the records of `n` bytes. -/
structure Field (n : ℕ) where
  off : ℕ
  size : ℕ
  bound : off + size ≤ n := by decide

namespace Field
variable {n : ℕ}

/-- The field has the byte at position `q` of the record. -/
def Has (f : Field n) (q : ℕ) : Prop := f.off ≤ q ∧ q < f.off + f.size

instance (f : Field n) (q : ℕ) : Decidable (f.Has q) := inferInstanceAs (Decidable (_ ∧ _))

/-- Two fields have no byte in common. -/
def Disjoint (f g : Field n) : Prop := f.off + f.size ≤ g.off ∨ g.off + g.size ≤ f.off

instance (f g : Field n) : Decidable (f.Disjoint g) := inferInstanceAs (Decidable (_ ∨ _))

def load (f : Field n) (o : Order) (r : Record n) : ℕ := o.load (slice r.bytes f.off f.size)

/-- The number in the field of a record that stands at `base`. -/
def loadAt (f : Field n) (o : Order) (bs : List UInt8) (base : ℕ) : ℕ :=
  o.load (slice bs (base + f.off) f.size)

theorem length_overwrite_store (f : Field n) (o : Order) (r : Record n) (v : ℕ) :
    (overwrite r.bytes f.off (o.store f.size v)).length = n := by
  have h := f.bound
  have hr := r.length_eq
  rw [length_overwrite (by rw [Order.length_store]; omega), hr]

def store (f : Field n) (o : Order) (v : ℕ) (r : Record n) : Record n where
  bytes := overwrite r.bytes f.off (o.store f.size v)
  length_eq := f.length_overwrite_store o r v

theorem load_lt (f : Field n) (o : Order) (r : Record n) : f.load o r < 256 ^ f.size := by
  have h := o.load_lt (slice r.bytes f.off f.size)
  have hl : (slice r.bytes f.off f.size).length = f.size :=
    length_slice (by have := f.bound; have := r.length_eq; omega)
  rwa [hl] at h

theorem load_store (f : Field n) (o : Order) (v : ℕ) (r : Record n) :
    f.load o (f.store o v r) = v % 256 ^ f.size := by
  have hl : (o.store f.size v).length = f.size := o.length_store _ _
  have hin : f.off + (o.store f.size v).length ≤ r.bytes.length := by
    have := f.bound
    have := r.length_eq
    omega
  have h := slice_overwrite hin
  rw [hl] at h
  rw [load, store, h, Order.load_store]

theorem load_store_of_disjoint {f g : Field n} (h : f.Disjoint g) (o : Order) (v : ℕ)
    (r : Record n) : g.load o (f.store o v r) = g.load o r := by
  have hl : (o.store f.size v).length = f.size := o.length_store _ _
  rw [load, store, slice_overwrite_of_disjoint]
  · rfl
  · have := f.bound; have := r.length_eq; omega
  · rw [hl]; unfold Disjoint at h; omega

/-- Writing a field changes no byte outside it. -/
theorem getElem?_store (f : Field n) (o : Order) (v : ℕ) (r : Record n) {q : ℕ} (hq : ¬f.Has q) :
    (f.store o v r).bytes[q]? = r.bytes[q]? := by
  have hl : (o.store f.size v).length = f.size := o.length_store _ _
  rw [store, getElem?_overwrite (by have := f.bound; have := r.length_eq; omega), hl]
  exact if_neg hq

theorem loadAt_congr (f : Field n) (o : Order) {bs bs' : List UInt8} {base : ℕ}
    (h : ∀ q, base + f.off ≤ q → q < base + f.off + f.size → bs[q]? = bs'[q]?) :
    f.loadAt o bs base = f.loadAt o bs' base := by
  rw [loadAt, loadAt, slice_congr h]

theorem load_slice (f : Field n) (o : Order) {bs : List UInt8} {base : ℕ} {r : Record n}
    (hr : r.bytes = slice bs base n) : f.load o r = f.loadAt o bs base := by
  rw [load, hr, slice_slice bs f.bound, loadAt]

end Field

end Bytes
