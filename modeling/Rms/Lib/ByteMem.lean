/-
Rms.Lib.ByteMem — byte-addressed memory, machine words and byte order.

A `Mem` is the byte at every offset of one memory block. Blocks carry no
length: a program that cares about the size of a block keeps it next to
the block and compares. Words of 16 and 32 bits are stored and loaded in
the byte order of a host (`Endian`), and `htons` / `htonl` are the usual
conversions to network order, the identity on a big-endian host and a
byte reversal on a little-endian one.

The two lemmas everything else rests on are `store32_htonl` (what a
converted store leaves in memory is the big-endian bytes, on either
host) and `ntohl_load32` (what a converted load sees is the big-endian
word, on either host), with their 16-bit twins. Together they make a
wire format independent of the hosts at its two ends.

Words are split into bytes by division, not by shifts, so every
round-trip fact here is one call of `omega`.
-/
import Mathlib.Data.List.Basic
import Mathlib.Tactic.Ring
import Mathlib.Tactic.Linarith

namespace Rms.ByteMem

/-- One block of memory. -/
abbrev Mem := Nat → UInt8

/-- The byte order of a host. -/
inductive Endian where
  | little
  | big
  deriving DecidableEq, Repr

/-! ## Runs of bytes -/

/-- The `n` bytes at offset `off`. -/
def readBytes (m : Mem) (off n : Nat) : List UInt8 :=
  (List.range n).map fun i => m (off + i)

/-- The block with `bs` written at offset `off`. -/
def writeBytes (m : Mem) (off : Nat) (bs : List UInt8) : Mem :=
  fun i => if off ≤ i then (bs[i - off]?).getD (m i) else m i

@[simp] theorem readBytes_length (m : Mem) (off n : Nat) :
    (readBytes m off n).length = n := by
  simp [readBytes]

theorem readBytes_getElem? (m : Mem) (off n i : Nat) (h : i < n) :
    (readBytes m off n)[i]? = some (m (off + i)) := by
  simp [readBytes, h]

/-- A run of bytes splits at any point. -/
theorem readBytes_add (m : Mem) (off a b : Nat) :
    readBytes m off (a + b) = readBytes m off a ++ readBytes m (off + a) b := by
  simp [readBytes, List.range_add, Nat.add_assoc]

/-- A shorter run is a beginning of a longer one. -/
theorem readBytes_take (m : Mem) (off : Nat) {k n : Nat} (h : k ≤ n) :
    readBytes m off k = (readBytes m off n).take k := by
  have hsplit := readBytes_add m off k (n - k)
  rw [show k + (n - k) = n by omega] at hsplit
  rw [hsplit]
  exact (List.take_left' (readBytes_length m off k)).symm

/-- Equal bytes read equal. -/
theorem readBytes_congr {m m' : Mem} {off n : Nat}
    (h : ∀ i, off ≤ i → i < off + n → m i = m' i) :
    readBytes m off n = readBytes m' off n := by
  apply List.map_congr_left
  intro i hi
  have hlt : i < n := List.mem_range.mp hi
  exact h _ (by omega) (by omega)

/-- A write is invisible below it. -/
theorem writeBytes_below (m : Mem) {off i : Nat} (bs : List UInt8) (h : i < off) :
    writeBytes m off bs i = m i := by
  simp [writeBytes, Nat.not_le.mpr h]

/-- A write is invisible past its end. -/
theorem writeBytes_above (m : Mem) {off i : Nat} (bs : List UInt8)
    (h : off + bs.length ≤ i) : writeBytes m off bs i = m i := by
  have hnone : bs[i - off]? = none := List.getElem?_eq_none (by omega)
  simp [writeBytes, hnone]

/-- Inside a write stand the bytes written. -/
theorem writeBytes_inside (m : Mem) (off : Nat) (bs : List UInt8) {i : Nat} (h : i < bs.length) :
    writeBytes m off bs (off + i) = bs[i] := by
  simp [writeBytes, h]

/-- A write treats blocks that agree at an offset alike there. -/
theorem writeBytes_congr {m m' : Mem} {i : Nat} (off : Nat) (bs : List UInt8) (h : m i = m' i) :
    writeBytes m off bs i = writeBytes m' off bs i := by
  simp only [writeBytes, h]

/-- What was written reads back. -/
theorem readBytes_writeBytes (m : Mem) (off : Nat) (bs : List UInt8) :
    readBytes (writeBytes m off bs) off bs.length = bs := by
  apply List.ext_getElem
  · simp
  · intro i h₁ h₂
    simp only [readBytes, List.getElem_map, List.getElem_range]
    exact writeBytes_inside m off bs h₂

/-- A read disjoint from a write does not see it. -/
theorem readBytes_writeBytes_disjoint (m : Mem) (off off' n : Nat) (bs : List UInt8)
    (h : off' + n ≤ off ∨ off + bs.length ≤ off') :
    readBytes (writeBytes m off bs) off' n = readBytes m off' n := by
  apply readBytes_congr
  intro i hlo hhi
  rcases h with h | h
  · exact writeBytes_below m bs (by omega)
  · exact writeBytes_above m bs (by omega)

/-! ## Words and bytes -/

/-- The two bytes of a 16-bit word, most significant first. -/
def be16 (w : UInt16) : List UInt8 :=
  [UInt8.ofNat (w.toNat / 256), UInt8.ofNat w.toNat]

/-- The four bytes of a 32-bit word, most significant first. -/
def be32 (w : UInt32) : List UInt8 :=
  [UInt8.ofNat (w.toNat / 16777216), UInt8.ofNat (w.toNat / 65536),
   UInt8.ofNat (w.toNat / 256), UInt8.ofNat w.toNat]

/-- The 16-bit word with the given bytes, most significant first. -/
def word16 (b₀ b₁ : UInt8) : UInt16 :=
  UInt16.ofNat (b₀.toNat * 256 + b₁.toNat)

/-- The 32-bit word with the given bytes, most significant first. -/
def word32 (b₀ b₁ b₂ b₃ : UInt8) : UInt32 :=
  UInt32.ofNat (b₀.toNat * 16777216 + b₁.toNat * 65536 + b₂.toNat * 256 + b₃.toNat)

@[simp] theorem be16_length (w : UInt16) : (be16 w).length = 2 := rfl

@[simp] theorem be32_length (w : UInt32) : (be32 w).length = 4 := rfl

theorem word16_toNat (b₀ b₁ : UInt8) :
    (word16 b₀ b₁).toNat = b₀.toNat * 256 + b₁.toNat := by
  have h₀ := b₀.toNat_lt
  have h₁ := b₁.toNat_lt
  simp only [word16, UInt16.toNat_ofNat']
  omega

theorem word32_toNat (b₀ b₁ b₂ b₃ : UInt8) :
    (word32 b₀ b₁ b₂ b₃).toNat
      = b₀.toNat * 16777216 + b₁.toNat * 65536 + b₂.toNat * 256 + b₃.toNat := by
  have h₀ := b₀.toNat_lt
  have h₁ := b₁.toNat_lt
  have h₂ := b₂.toNat_lt
  have h₃ := b₃.toNat_lt
  simp only [word32, UInt32.toNat_ofNat']
  omega

/-- A 16-bit word is the word of its own bytes. -/
theorem word16_be16 (w : UInt16) :
    word16 (UInt8.ofNat (w.toNat / 256)) (UInt8.ofNat w.toNat) = w := by
  apply UInt16.toNat_inj.mp
  have h := w.toNat_lt
  rw [word16_toNat]
  simp only [UInt8.toNat_ofNat']
  omega

/-- A 32-bit word is the word of its own bytes. -/
theorem word32_be32 (w : UInt32) :
    word32 (UInt8.ofNat (w.toNat / 16777216)) (UInt8.ofNat (w.toNat / 65536))
      (UInt8.ofNat (w.toNat / 256)) (UInt8.ofNat w.toNat) = w := by
  apply UInt32.toNat_inj.mp
  have h := w.toNat_lt
  rw [word32_toNat]
  simp only [UInt8.toNat_ofNat']
  omega

/-- The bytes of the word with given bytes are those bytes. -/
theorem be16_word16 (b₀ b₁ : UInt8) : be16 (word16 b₀ b₁) = [b₀, b₁] := by
  have h₀ := b₀.toNat_lt
  have h₁ := b₁.toNat_lt
  simp only [be16, word16_toNat, List.cons.injEq, and_true, ← UInt8.toNat_inj,
    UInt8.toNat_ofNat']
  omega

/-- The bytes of the word with given bytes are those bytes. -/
theorem be32_word32 (b₀ b₁ b₂ b₃ : UInt8) :
    be32 (word32 b₀ b₁ b₂ b₃) = [b₀, b₁, b₂, b₃] := by
  have h₀ := b₀.toNat_lt
  have h₁ := b₁.toNat_lt
  have h₂ := b₂.toNat_lt
  have h₃ := b₃.toNat_lt
  simp only [be32, word32_toNat, List.cons.injEq, and_true, ← UInt8.toNat_inj,
    UInt8.toNat_ofNat']
  omega

/-! ## Host byte order -/

/-- A 16-bit word as the host lays it out. -/
def enc16 (e : Endian) (w : UInt16) : List UInt8 :=
  match e with
  | .big => be16 w
  | .little => (be16 w).reverse

/-- A 32-bit word as the host lays it out. -/
def enc32 (e : Endian) (w : UInt32) : List UInt8 :=
  match e with
  | .big => be32 w
  | .little => (be32 w).reverse

def store16 (e : Endian) (m : Mem) (off : Nat) (w : UInt16) : Mem :=
  writeBytes m off (enc16 e w)

def store32 (e : Endian) (m : Mem) (off : Nat) (w : UInt32) : Mem :=
  writeBytes m off (enc32 e w)

def load16 (e : Endian) (m : Mem) (off : Nat) : UInt16 :=
  match e with
  | .big => word16 (m off) (m (off + 1))
  | .little => word16 (m (off + 1)) (m off)

def load32 (e : Endian) (m : Mem) (off : Nat) : UInt32 :=
  match e with
  | .big => word32 (m off) (m (off + 1)) (m (off + 2)) (m (off + 3))
  | .little => word32 (m (off + 3)) (m (off + 2)) (m (off + 1)) (m off)

/-- The word with the two bytes exchanged. -/
def bswap16 (w : UInt16) : UInt16 :=
  word16 (UInt8.ofNat w.toNat) (UInt8.ofNat (w.toNat / 256))

/-- The word with the four bytes reversed. -/
def bswap32 (w : UInt32) : UInt32 :=
  word32 (UInt8.ofNat w.toNat) (UInt8.ofNat (w.toNat / 256))
    (UInt8.ofNat (w.toNat / 65536)) (UInt8.ofNat (w.toNat / 16777216))

def htons (e : Endian) (w : UInt16) : UInt16 :=
  match e with
  | .big => w
  | .little => bswap16 w

def htonl (e : Endian) (w : UInt32) : UInt32 :=
  match e with
  | .big => w
  | .little => bswap32 w

/-- The conversion back is the same exchange. -/
def ntohs (e : Endian) (w : UInt16) : UInt16 := htons e w

/-- The conversion back is the same reversal. -/
def ntohl (e : Endian) (w : UInt32) : UInt32 := htonl e w

/-- The 16-bit word in network order at an offset. -/
def be16At (m : Mem) (off : Nat) : UInt16 := word16 (m off) (m (off + 1))

/-- The 32-bit word in network order at an offset. -/
def be32At (m : Mem) (off : Nat) : UInt32 :=
  word32 (m off) (m (off + 1)) (m (off + 2)) (m (off + 3))

@[simp] theorem enc16_length (e : Endian) (w : UInt16) : (enc16 e w).length = 2 := by
  cases e <;> rfl

@[simp] theorem enc32_length (e : Endian) (w : UInt32) : (enc32 e w).length = 4 := by
  cases e <;> rfl

theorem bswap16_word16 (b₀ b₁ : UInt8) : bswap16 (word16 b₀ b₁) = word16 b₁ b₀ := by
  have h := be16_word16 b₀ b₁
  simp only [be16, List.cons.injEq, and_true] at h
  simp only [bswap16, h.1, h.2]

theorem bswap32_word32 (b₀ b₁ b₂ b₃ : UInt8) :
    bswap32 (word32 b₀ b₁ b₂ b₃) = word32 b₃ b₂ b₁ b₀ := by
  have h := be32_word32 b₀ b₁ b₂ b₃
  simp only [be32, List.cons.injEq, and_true] at h
  simp only [bswap32, h.1, h.2.1, h.2.2.1, h.2.2.2]

/-- A converted 16-bit word is laid out in network order on either host. -/
theorem enc16_htons (e : Endian) (w : UInt16) : enc16 e (htons e w) = be16 w := by
  cases e with
  | big => rfl
  | little => simp only [enc16, htons, bswap16, be16_word16]; rfl

/-- A converted 32-bit word is laid out in network order on either host. -/
theorem enc32_htonl (e : Endian) (w : UInt32) : enc32 e (htonl e w) = be32 w := by
  cases e with
  | big => rfl
  | little => simp only [enc32, htonl, bswap32, be32_word32]; rfl

theorem store16_htons (e : Endian) (m : Mem) (off : Nat) (w : UInt16) :
    store16 e m off (htons e w) = writeBytes m off (be16 w) := by
  rw [store16, enc16_htons]

theorem store32_htonl (e : Endian) (m : Mem) (off : Nat) (w : UInt32) :
    store32 e m off (htonl e w) = writeBytes m off (be32 w) := by
  rw [store32, enc32_htonl]

/-- Zero needs no conversion. -/
theorem store16_zero (e : Endian) (m : Mem) (off : Nat) :
    store16 e m off 0 = writeBytes m off (be16 0) := by
  cases e <;> rfl

/-- A converted 16-bit load sees the word in network order on either host. -/
theorem ntohs_load16 (e : Endian) (m : Mem) (off : Nat) :
    ntohs e (load16 e m off) = be16At m off := by
  cases e with
  | big => rfl
  | little => simp only [ntohs, htons, load16, bswap16_word16, be16At]

/-- A converted 32-bit load sees the word in network order on either host. -/
theorem ntohl_load32 (e : Endian) (m : Mem) (off : Nat) :
    ntohl e (load32 e m off) = be32At m off := by
  cases e with
  | big => rfl
  | little => simp only [ntohl, htonl, load32, bswap32_word32, be32At]

/-- A stored 16-bit word loads back. -/
theorem load16_store16 (e : Endian) (m : Mem) (off : Nat) (w : UInt16) :
    load16 e (store16 e m off w) off = w := by
  have h₀ := writeBytes_inside m off (enc16 e w) (i := 0) (by simp)
  have h₁ := writeBytes_inside m off (enc16 e w) (i := 1) (by simp)
  rw [Nat.add_zero] at h₀
  cases e <;> simp only [load16, store16, h₀, h₁] <;> exact word16_be16 w

/-- A stored 32-bit word loads back. -/
theorem load32_store32 (e : Endian) (m : Mem) (off : Nat) (w : UInt32) :
    load32 e (store32 e m off w) off = w := by
  have h₀ := writeBytes_inside m off (enc32 e w) (i := 0) (by simp)
  have h₁ := writeBytes_inside m off (enc32 e w) (i := 1) (by simp)
  have h₂ := writeBytes_inside m off (enc32 e w) (i := 2) (by simp)
  have h₃ := writeBytes_inside m off (enc32 e w) (i := 3) (by simp)
  rw [Nat.add_zero] at h₀
  cases e <;> simp only [load32, store32, h₀, h₁, h₂, h₃] <;> exact word32_be32 w

/-! ## Frame facts for words -/

theorem load16_congr (e : Endian) {m m' : Mem} {off : Nat}
    (h : ∀ i, off ≤ i → i < off + 2 → m i = m' i) : load16 e m off = load16 e m' off := by
  have h₀ := h off (by omega) (by omega)
  have h₁ := h (off + 1) (by omega) (by omega)
  cases e <;> simp only [load16, h₀, h₁]

theorem load32_congr (e : Endian) {m m' : Mem} {off : Nat}
    (h : ∀ i, off ≤ i → i < off + 4 → m i = m' i) : load32 e m off = load32 e m' off := by
  have h₀ := h off (by omega) (by omega)
  have h₁ := h (off + 1) (by omega) (by omega)
  have h₂ := h (off + 2) (by omega) (by omega)
  have h₃ := h (off + 3) (by omega) (by omega)
  cases e <;> simp only [load32, h₀, h₁, h₂, h₃]

theorem be16At_congr {m m' : Mem} {off : Nat}
    (h : ∀ i, off ≤ i → i < off + 2 → m i = m' i) : be16At m off = be16At m' off := by
  simp only [be16At, h off (by omega) (by omega), h (off + 1) (by omega) (by omega)]

theorem be32At_congr {m m' : Mem} {off : Nat}
    (h : ∀ i, off ≤ i → i < off + 4 → m i = m' i) : be32At m off = be32At m' off := by
  simp only [be32At, h off (by omega) (by omega), h (off + 1) (by omega) (by omega),
    h (off + 2) (by omega) (by omega), h (off + 3) (by omega) (by omega)]

/-- A 16-bit load disjoint from a write does not see it. -/
theorem load16_writeBytes (e : Endian) (m : Mem) {off off' : Nat} (bs : List UInt8)
    (h : off + 2 ≤ off' ∨ off' + bs.length ≤ off) :
    load16 e (writeBytes m off' bs) off = load16 e m off := by
  apply load16_congr
  intro i hlo hhi
  rcases h with h | h
  · exact writeBytes_below m bs (by omega)
  · exact writeBytes_above m bs (by omega)

/-- A 32-bit load disjoint from a write does not see it. -/
theorem load32_writeBytes (e : Endian) (m : Mem) {off off' : Nat} (bs : List UInt8)
    (h : off + 4 ≤ off' ∨ off' + bs.length ≤ off) :
    load32 e (writeBytes m off' bs) off = load32 e m off := by
  apply load32_congr
  intro i hlo hhi
  rcases h with h | h
  · exact writeBytes_below m bs (by omega)
  · exact writeBytes_above m bs (by omega)

@[simp] theorem readBytes_be16 (m : Mem) (off : Nat) (w : UInt16) :
    readBytes (writeBytes m off (be16 w)) off 2 = be16 w :=
  readBytes_writeBytes m off (be16 w)

@[simp] theorem readBytes_be32 (m : Mem) (off : Nat) (w : UInt32) :
    readBytes (writeBytes m off (be32 w)) off 4 = be32 w :=
  readBytes_writeBytes m off (be32 w)

/-- A word in network order is its four bytes. -/
theorem be32At_of_readBytes {m : Mem} {off : Nat} {w : UInt32}
    (h : readBytes m off 4 = be32 w) : be32At m off = w := by
  simp only [readBytes, be32, List.range_succ, List.range_zero, List.nil_append, List.cons_append,
    List.map_cons, List.map_nil, List.cons.injEq, and_true, Nat.add_zero] at h
  rw [be32At, h.1, h.2.1, h.2.2.1, h.2.2.2]
  exact word32_be32 w

/-- A word in network order is its two bytes. -/
theorem be16At_of_readBytes {m : Mem} {off : Nat} {w : UInt16}
    (h : readBytes m off 2 = be16 w) : be16At m off = w := by
  simp only [readBytes, be16, List.range_succ, List.range_zero, List.nil_append, List.cons_append,
    List.map_cons, List.map_nil, List.cons.injEq, and_true, Nat.add_zero] at h
  rw [be16At, h.1, h.2]
  exact word16_be16 w

/-- A word at the front of a list of bytes. -/
theorem load32_enc32_append (e : Endian) (w : UInt32) (ys : List UInt8) :
    load32 e (fun i => (enc32 e w ++ ys).getD i 0) 0 = w := by
  refine (load32_congr e fun i _ hi => ?_).trans (load32_store32 e (fun _ => 0) 0 w)
  have hlen : i < (enc32 e w).length := by
    rw [enc32_length]
    exact hi
  rw [store32, ← Nat.zero_add i, writeBytes_inside _ _ _ hlen]
  simp only [Nat.zero_add, List.getD_eq_getElem?_getD]
  rw [List.getElem?_append_left hlen, List.getElem?_eq_getElem hlen]
  rfl

theorem load32_shift (e : Endian) (m : Mem) (off : Nat) :
    load32 e m (off + 4) = load32 e (fun i => m (i + 4)) off := by
  cases e <;> rfl

/-- Words of the host in a row, and zeros behind them. -/
theorem load32_flatMap_enc32 (e : Endian) (l : List UInt32) (i : Nat) :
    load32 e (fun j => (l.flatMap (enc32 e)).getD j 0) (4 * i) = l.getD i 0 := by
  induction l generalizing i with
  | nil => cases e <;> simp [load32, word32]
  | cons w l ih =>
    cases i with
    | zero => exact load32_enc32_append e w (l.flatMap (enc32 e))
    | succ i =>
      rw [Nat.mul_succ, load32_shift, List.getD_cons_succ, ← ih i]
      apply load32_congr
      intro j _ _
      simp only [List.flatMap_cons, List.getD_eq_getElem?_getD]
      rw [List.getElem?_append_right (by rw [enc32_length]; omega), enc32_length,
        Nat.add_sub_cancel]

/-! ## Words that are not converted -/

/-- A word loaded as it is, is the word in network order converted. -/
theorem load32_eq_htonl (e : Endian) (m : Mem) (off : Nat) :
    load32 e m off = htonl e (be32At m off) := by
  cases e with
  | big => rfl
  | little => rw [be32At, htonl, bswap32_word32, load32]

theorem htonl_injective (e : Endian) {a b : UInt32} (h : htonl e a = htonl e b) : a = b := by
  have hbytes := congrArg (enc32 e) h
  rw [enc32_htonl, enc32_htonl] at hbytes
  have hword : ∀ w : UInt32, be32At (fun i => (be32 w).getD i 0) 0 = w := word32_be32
  rw [← hword a, hbytes, hword]

/-! ## Words in a row -/

/-- `n` big-endian words from `off` on. -/
def wordsAt (m : Mem) (off n : Nat) : List UInt32 :=
  (List.range n).map fun i => be32At m (off + 4 * i)

@[simp] theorem wordsAt_length (m : Mem) (off n : Nat) : (wordsAt m off n).length = n := by
  simp [wordsAt]

theorem wordsAt_succ (m : Mem) (off n : Nat) :
    wordsAt m off (n + 1) = be32At m off :: wordsAt m (off + 4) n := by
  simp only [wordsAt, List.range_succ_eq_map, List.map_cons, List.map_map, Nat.mul_zero,
    Nat.add_zero]
  refine congrArg _ (List.map_congr_left fun i _ => ?_)
  simp only [Function.comp_apply, Nat.mul_succ]
  rw [Nat.add_right_comm, Nat.add_assoc off]

theorem wordsAt_add (m : Mem) (off n k : Nat) :
    wordsAt m off (n + k) = wordsAt m off n ++ wordsAt m (off + 4 * n) k := by
  simp only [wordsAt, List.range_add, List.map_append, List.map_map]
  refine congrArg _ (List.map_congr_left fun i _ => ?_)
  simp only [Function.comp_apply, Nat.mul_add, Nat.add_assoc]

theorem wordsAt_take (m : Mem) (off : Nat) {n k : Nat} (h : k ≤ n) :
    (wordsAt m off n).take k = wordsAt m off k := by
  obtain ⟨j, rfl⟩ := Nat.exists_eq_add_of_le h
  rw [wordsAt_add]
  exact List.take_left' (wordsAt_length m off k)

theorem wordsAt_congr {m m' : Mem} {off n : Nat}
    (h : ∀ i, off ≤ i → i < off + 4 * n → m i = m' i) : wordsAt m off n = wordsAt m' off n := by
  refine List.map_congr_left fun i hi => ?_
  have hi := List.mem_range.mp hi
  exact be32At_congr fun j hlo hhi => h j (by omega) (by omega)

theorem flatMap_be32_length (l : List UInt32) : (l.flatMap be32).length = 4 * l.length := by
  induction l with
  | nil => rfl
  | cons w l ih =>
    rw [List.flatMap_cons, List.length_append, be32_length, ih, List.length_cons]
    omega

/-- Where the bytes of a list of words lie, its words are read. -/
theorem wordsAt_of_readBytes {m : Mem} {l : List UInt32} :
    ∀ {off : Nat}, readBytes m off (4 * l.length) = l.flatMap be32 →
      wordsAt m off l.length = l := by
  induction l with
  | nil => exact fun _ => rfl
  | cons w l ih =>
    intro off h
    rw [List.length_cons, Nat.mul_succ, Nat.add_comm, readBytes_add, List.flatMap_cons] at h
    obtain ⟨hw, hl⟩ := List.append_inj h (by simp)
    rw [List.length_cons, wordsAt_succ, be32At_of_readBytes hw, ih hl]

end Rms.ByteMem
