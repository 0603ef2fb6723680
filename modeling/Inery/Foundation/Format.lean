import Inery.Foundation.Table

/-!
# Binary formats

A `Format` says how values are written as bytes and read back, and carries the proof that reading
undoes writing, whatever bytes follow.  Formats are put together field by field, so the layout of a
record is one definition and its round trip comes with it.

A varint has more spellings than the one the writer chooses, so the reader of a format is given the
reader of varints it uses: `readVarint` takes every spelling, `readMinimal` only the written one.
`Format.IsCanonical` says that with the latter a value has a single spelling.
-/

namespace Inery.Foundation

open List Finmap

abbrev Bytes := List UInt8

/-- Takes a value off the front of a byte string. -/
abbrev Reader (α : Type) := StateT Bytes Option α

namespace Reader

variable {α β : Type} {x : Reader α} {f : α → Reader β} {bs rest : Bytes} {a : α} {b : β}

theorem bind_of_some (h : x bs = some (a, rest)) : (x >>= f) bs = f a rest := by
  show (x bs >>= fun p => f p.1 p.2) = f a rest
  rw [h]
  rfl

theorem bind_eq_some :
    (x >>= f) bs = some (b, rest) ↔ ∃ a mid, x bs = some (a, mid) ∧ f a mid = some (b, rest) := by
  constructor
  · intro h
    cases hx : x bs with
    | none =>
      have hnone : (x >>= f) bs = none := by
        show (x bs >>= fun p => f p.1 p.2) = none
        rw [hx]
        rfl
      rw [hnone] at h
      cases h
    | some p => exact ⟨p.1, p.2, rfl, by rw [← bind_of_some (f := f) hx, h]⟩
  · rintro ⟨a, mid, hx, hf⟩
    rw [bind_of_some hx, hf]

/-- Stop unless `c` holds. -/
def require (c : Prop) [Decidable c] : Reader Unit := fun bs => if c then some ((), bs) else none

theorem require_eq_some {c : Prop} [Decidable c] {u : Unit} :
    require c bs = some (u, rest) ↔ c ∧ bs = rest := by
  unfold require
  split <;> simp_all

theorem require_of_pos {c : Prop} [Decidable c] (h : c) : require c bs = some ((), bs) := if_pos h

def take (n : ℕ) : Reader Bytes := fun bs =>
  if n ≤ bs.length then some (bs.take n, bs.drop n) else none

theorem take_append {w : Bytes} : take w.length (w ++ rest) = some (w, rest) := by
  unfold take
  rw [if_pos (by simp)]
  simp

theorem take_eq_some {n : ℕ} {w : Bytes} :
    take n bs = some (w, rest) ↔ bs = w ++ rest ∧ w.length = n := by
  constructor
  · intro h
    unfold take at h
    split at h
    · next hn =>
      cases h
      exact ⟨(take_append_drop n bs).symm, length_take_of_le hn⟩
    · cases h
  · rintro ⟨rfl, rfl⟩
    exact take_append

def many (x : Reader α) : ℕ → Reader (List α)
  | 0 => pure []
  | n + 1 => do
      let a ← x
      let as ← many x n
      pure (a :: as)

end Reader

open Reader

/-! ## Integers of a fixed width -/

def leBytes : ℕ → ℕ → Bytes
  | 0, _ => []
  | n + 1, v => UInt8.ofNat v :: leBytes n (v / 256)

def ofLeBytes : Bytes → ℕ
  | [] => 0
  | b :: bs => b.toNat + 256 * ofLeBytes bs

@[simp] theorem length_leBytes (n v : ℕ) : (leBytes n v).length = n := by
  induction n generalizing v with
  | zero => rfl
  | succ n ih => rw [leBytes, length_cons, ih]

/-- The low bytes come first. -/
theorem leBytes_add (m n v : ℕ) : leBytes (m + n) v = leBytes m v ++ leBytes n (v / 256 ^ m) := by
  induction m generalizing v with
  | zero => rw [Nat.zero_add, Nat.pow_zero, Nat.div_one, leBytes, nil_append]
  | succ m ih =>
    rw [Nat.succ_add, leBytes, ih, leBytes, cons_append, Nat.div_div_eq_div_mul, Nat.pow_succ']

theorem ofLeBytes_leBytes_mod (n v : ℕ) : ofLeBytes (leBytes n v) = v % 256 ^ n := by
  induction n generalizing v with
  | zero => rw [Nat.pow_zero, Nat.mod_one, leBytes, ofLeBytes]
  | succ n ih =>
    have hsplit : v % 256 ^ (n + 1) = v % 256 + 256 * (v / 256 % 256 ^ n) := by
      rw [Nat.pow_succ', Nat.mod_mul]
    rw [leBytes, ofLeBytes, ih, hsplit, UInt8.toNat_ofNat']

theorem ofLeBytes_leBytes {n v : ℕ} (h : v < 256 ^ n) : ofLeBytes (leBytes n v) = v := by
  rw [ofLeBytes_leBytes_mod, Nat.mod_eq_of_lt h]

theorem ofLeBytes_lt (bs : Bytes) : ofLeBytes bs < 256 ^ bs.length := by
  induction bs with
  | nil => decide
  | cons b bs ih =>
    have hb := b.toNat_lt
    rw [ofLeBytes, length_cons, Nat.pow_succ]
    omega

theorem leBytes_ofLeBytes (bs : Bytes) : leBytes bs.length (ofLeBytes bs) = bs := by
  induction bs with
  | nil => rfl
  | cons b bs ih =>
    have hb := b.toNat_lt
    have hlow : UInt8.ofNat (b.toNat + 256 * ofLeBytes bs) = b := by
      apply UInt8.toNat_inj.mp
      rw [UInt8.toNat_ofNat']
      omega
    have hhigh : (b.toNat + 256 * ofLeBytes bs) / 256 = ofLeBytes bs := by omega
    rw [length_cons, ofLeBytes, leBytes, hlow, hhigh, ih]

/-! ## Varints -/

/-- Groups of seven bits, lowest first; every group but the last has the
continuation bit. -/
def varintBytes : ℕ → ℕ → Bytes
  | 0, _ => []
  | n + 1, v =>
    if v < 128 then [UInt8.ofNat v]
    else UInt8.ofNat (v % 128 + 128) :: varintBytes n (v / 128)

/-- A 32-bit value takes at most five groups. -/
def packVarint (v : ℕ) : Bytes := varintBytes 5 v

/-- At most `n` groups; the continuation bit of the last one is not looked at. -/
def varintGroups : ℕ → Reader ℕ
  | 0, bs => some (0, bs)
  | _ + 1, [] => none
  | n + 1, b :: bs =>
    if b.toNat < 128 then some (b.toNat, bs)
    else (varintGroups n bs).map fun r => (b.toNat % 128 + 128 * r.1, r.2)

/-- Every spelling of a 32-bit value.  Bits of the fifth group that do not fit
are dropped. -/
def readVarint : Reader ℕ := fun bs =>
  (varintGroups 5 bs).map fun r => (r.1 % 2 ^ 32, r.2)

/-- Only the spelling that `packVarint` chooses. -/
def readMinimal : Reader ℕ := fun bs =>
  match readVarint bs with
  | some (v, rest) => if bs = packVarint v ++ rest then some (v, rest) else none
  | none => none

/-- A reader that takes at least what is written. -/
def ReadsVarints (r : Reader ℕ) : Prop :=
  ∀ v < 2 ^ 32, ∀ rest, r (packVarint v ++ rest) = some (v, rest)

theorem varintGroups_varintBytes {n v : ℕ} (h : v < 128 ^ n) (rest : Bytes) :
    varintGroups n (varintBytes n v ++ rest) = some (v, rest) := by
  induction n generalizing v with
  | zero =>
    rw [Nat.pow_zero, Nat.lt_one_iff] at h
    rw [h]
    rfl
  | succ n ih =>
    rw [varintBytes]
    by_cases hlast : v < 128
    · have hbyte : (UInt8.ofNat v).toNat = v := by
        rw [UInt8.toNat_ofNat']
        omega
      rw [if_pos hlast, singleton_append, varintGroups, hbyte, if_pos hlast]
    · have hbyte : (UInt8.ofNat (v % 128 + 128)).toNat = v % 128 + 128 := by
        rw [UInt8.toNat_ofNat']
        omega
      have hdiv : v / 128 < 128 ^ n := by
        rw [Nat.div_lt_iff_lt_mul (by decide), ← Nat.pow_succ]
        exact h
      have hvalue : (v % 128 + 128) % 128 + 128 * (v / 128) = v := by omega
      rw [if_neg hlast, cons_append, varintGroups, hbyte, if_neg (by omega), ih hdiv,
        Option.map_some, hvalue]

theorem readsVarints_readVarint : ReadsVarints readVarint := by
  intro v hv rest
  rw [readVarint, packVarint, varintGroups_varintBytes (by omega), Option.map_some,
    Nat.mod_eq_of_lt hv]

theorem readsVarints_readMinimal : ReadsVarints readMinimal := by
  intro v hv rest
  simp only [readMinimal, readsVarints_readVarint v hv rest, if_true]

theorem readMinimal_eq_some {bs rest : Bytes} {v : ℕ} (h : readMinimal bs = some (v, rest)) :
    v < 2 ^ 32 ∧ bs = packVarint v ++ rest := by
  unfold readMinimal at h
  split at h
  · next v' rest' hread =>
    split at h
    · next hbs =>
      cases h
      unfold readVarint at hread
      obtain ⟨⟨w, mid⟩, -, hw⟩ := Option.map_eq_some_iff.mp hread
      cases hw
      exact ⟨Nat.mod_lt _ (by decide), hbs⟩
    · cases h
  · cases h

/-! ## Formats -/

/-- How values are written and read.  Writing fails for a value that does not
fit, such as a list over its limit. -/
structure Format (α : Type) where
  pack : α → Option Bytes
  unpack : Reader ℕ → Reader α
  unpack_pack : ∀ {r : Reader ℕ}, ReadsVarints r → ∀ {a bs}, pack a = some bs →
    ∀ rest, unpack r (bs ++ rest) = some (a, rest)

namespace Format

variable {α β : Type} {f : Format α} {g : Format β}

/-- Read as the program does, with every spelling of a size. -/
def read (f : Format α) : Reader α := f.unpack readVarint

variable {bs : Bytes}

theorem read_pack {a : α} (h : f.pack a = some bs) (rest : Bytes) :
    f.read (bs ++ rest) = some (a, rest) :=
  f.unpack_pack readsVarints_readVarint h rest

/-- What is read when varints are taken in their written spelling only has been
written. -/
structure IsCanonical (f : Format α) : Prop where
  written : ∀ {bs rest : Bytes} {a : α}, f.unpack readMinimal bs = some (a, rest) →
    ∃ w, f.pack a = some w ∧ bs = w ++ rest

def Minimal (f : Format α) (bs : Bytes) : Prop := ∃ a, f.unpack readMinimal bs = some (a, [])

/-- Writing what was read gives the bytes back exactly if they are minimal. -/
theorem IsCanonical.pack_eq_iff (hf : f.IsCanonical) {rest : Bytes} {a : α}
    (h : f.read bs = some (a, rest)) : f.pack a = some bs ↔ f.Minimal bs := by
  constructor
  · intro hpack
    have hread := f.unpack_pack readsVarints_readMinimal hpack []
    rw [append_nil] at hread
    exact ⟨a, hread⟩
  · rintro ⟨b, hb⟩
    obtain ⟨w, hw, hbs⟩ := hf.written hb
    rw [append_nil] at hbs
    subst hbs
    have hread := f.read_pack hw []
    rw [append_nil, h] at hread
    cases hread
    exact hw

def uint (n : ℕ) : Format ℕ where
  pack v := if v < 256 ^ n then some (leBytes n v) else none
  unpack _ := do
    let bs ← Reader.take n
    pure (ofLeBytes bs)
  unpack_pack := by
    intro r _ v bs h rest
    split at h
    · next hv =>
      cases h
      have htake : Reader.take (leBytes n v).length (leBytes n v ++ rest) = _ := take_append
      rw [length_leBytes] at htake
      rw [bind_of_some htake, ofLeBytes_leBytes hv]
      rfl
    · cases h

theorem isCanonical_uint (n : ℕ) : (uint n).IsCanonical := by
  refine ⟨?_⟩
  intro bs rest v h
  obtain ⟨w, mid, htake, hpure⟩ := bind_eq_some.mp h
  cases hpure
  obtain ⟨rfl, rfl⟩ := take_eq_some.mp htake
  refine ⟨w, ?_, rfl⟩
  simp only [uint]
  rw [if_pos (ofLeBytes_lt w), leBytes_ofLeBytes]

def varint : Format ℕ where
  pack v := if v < 2 ^ 32 then some (packVarint v) else none
  unpack r := r
  unpack_pack := by
    intro r hr v bs h rest
    split at h
    · next hv =>
      cases h
      exact hr v hv rest
    · cases h

theorem isCanonical_varint : varint.IsCanonical := by
  refine ⟨?_⟩
  intro bs rest v h
  obtain ⟨hv, hbs⟩ := readMinimal_eq_some h
  exact ⟨packVarint v, if_pos hv, hbs⟩

def prod (f : Format α) (g : Format β) : Format (α × β) where
  pack p := do
    let bs ← f.pack p.1
    let cs ← g.pack p.2
    pure (bs ++ cs)
  unpack r := do
    let a ← f.unpack r
    let b ← g.unpack r
    pure (a, b)
  unpack_pack := by
    intro r hr p bs h rest
    obtain ⟨ws, hws, h⟩ := Option.bind_eq_some_iff.mp h
    obtain ⟨cs, hcs, h⟩ := Option.bind_eq_some_iff.mp h
    cases h
    rw [append_assoc, bind_of_some (f.unpack_pack hr hws _), bind_of_some (g.unpack_pack hr hcs _)]
    rfl

theorem IsCanonical.prod (hf : f.IsCanonical) (hg : g.IsCanonical) : (f.prod g).IsCanonical := by
  refine ⟨?_⟩
  intro bs rest p h
  obtain ⟨a, mid, ha, h⟩ := bind_eq_some.mp h
  obtain ⟨b, mid', hb, h⟩ := bind_eq_some.mp h
  cases h
  obtain ⟨ws, hws, rfl⟩ := hf.written ha
  obtain ⟨cs, hcs, rfl⟩ := hg.written hb
  refine ⟨ws ++ cs, ?_, by rw [append_assoc]⟩
  simp only [Format.prod, hws, hcs]
  rfl

/-- A record, by the value that holds its fields. -/
def record (fields : β → α) (make : α → β) (h : ∀ b, make (fields b) = b) (f : Format α) :
    Format β where
  pack b := f.pack (fields b)
  unpack r := do
    let a ← f.unpack r
    pure (make a)
  unpack_pack := by
    intro r hr b bs hb rest
    rw [bind_of_some (f.unpack_pack hr hb rest), h]
    rfl

theorem IsCanonical.record {fields : β → α} {make : α → β} {h : ∀ b, make (fields b) = b}
    (hf : f.IsCanonical) (hmake : ∀ a, f.pack a ≠ none → fields (make a) = a) :
    (record fields make h f).IsCanonical := by
  refine ⟨?_⟩
  intro bs rest b hb
  obtain ⟨a, mid, ha, hpure⟩ := bind_eq_some.mp hb
  cases hpure
  obtain ⟨w, hw, rfl⟩ := hf.written ha
  refine ⟨w, ?_, rfl⟩
  simp only [Format.record, hmake a (by simp [hw]), hw]

def packMany (f : Format α) : List α → Option Bytes
  | [] => some []
  | a :: as => do
      let bs ← f.pack a
      let cs ← packMany f as
      pure (bs ++ cs)

variable {as : List α}

theorem packMany_cons_eq_some {a : α} :
    f.packMany (a :: as) = some bs ↔
      ∃ ws cs, f.pack a = some ws ∧ f.packMany as = some cs ∧ bs = ws ++ cs := by
  constructor
  · intro h
    obtain ⟨ws, hws, h⟩ := Option.bind_eq_some_iff.mp h
    obtain ⟨cs, hcs, h⟩ := Option.bind_eq_some_iff.mp h
    cases h
    exact ⟨ws, cs, hws, hcs, rfl⟩
  · rintro ⟨ws, cs, hws, hcs, rfl⟩
    simp only [packMany, hws, hcs]
    rfl

theorem many_packMany {r : Reader ℕ} (hr : ReadsVarints r) (h : f.packMany as = some bs)
    (rest : Bytes) : many (f.unpack r) as.length (bs ++ rest) = some (as, rest) := by
  induction as generalizing bs with
  | nil =>
    cases h
    rfl
  | cons a as ih =>
    obtain ⟨ws, cs, hws, hcs, rfl⟩ := packMany_cons_eq_some.mp h
    rw [length_cons, many, append_assoc,
      bind_of_some (f.unpack_pack hr hws _), bind_of_some (ih hcs)]
    rfl

theorem IsCanonical.many (hf : f.IsCanonical) {n : ℕ} {rest : Bytes}
    (h : many (f.unpack readMinimal) n bs = some (as, rest)) :
    as.length = n ∧ ∃ w, f.packMany as = some w ∧ bs = w ++ rest := by
  induction n generalizing bs as with
  | zero =>
    cases h
    exact ⟨rfl, [], rfl, rfl⟩
  | succ n ih =>
    obtain ⟨a, mid, ha, h⟩ := bind_eq_some.mp h
    obtain ⟨as', mid', has, h⟩ := bind_eq_some.mp h
    cases h
    obtain ⟨ws, hws, rfl⟩ := hf.written ha
    obtain ⟨hlen, cs, hcs, rfl⟩ := ih has
    exact ⟨by rw [length_cons, hlen], ws ++ cs,
      packMany_cons_eq_some.mpr ⟨ws, cs, hws, hcs, rfl⟩, by rw [append_assoc]⟩

/-- A list behind its size, of at most `limit` elements. -/
def list (limit : ℕ) (f : Format α) : Format (List α) where
  pack as :=
    if as.length ≤ limit then do
      let size ← varint.pack as.length
      let bs ← f.packMany as
      pure (size ++ bs)
    else none
  unpack r := do
    let size ← varint.unpack r
    require (size ≤ limit)
    many (f.unpack r) size
  unpack_pack := by
    intro r hr as bs h rest
    split at h
    · next hle =>
      obtain ⟨size, hsize, h⟩ := Option.bind_eq_some_iff.mp h
      obtain ⟨cs, hcs, h⟩ := Option.bind_eq_some_iff.mp h
      cases h
      rw [append_assoc, bind_of_some (varint.unpack_pack hr hsize _),
        bind_of_some (require_of_pos hle)]
      exact many_packMany hr hcs rest
    · cases h

theorem IsCanonical.list (hf : f.IsCanonical) (limit : ℕ) : (f.list limit).IsCanonical := by
  refine ⟨?_⟩
  intro bs rest as h
  obtain ⟨size, mid, hsize, h⟩ := bind_eq_some.mp h
  obtain ⟨_, mid', hlimit, h⟩ := bind_eq_some.mp h
  obtain ⟨hle, rfl⟩ := require_eq_some.mp hlimit
  obtain ⟨rfl, cs, hcs, rfl⟩ := hf.many h
  obtain ⟨w, hw, rfl⟩ := isCanonical_varint.written hsize
  refine ⟨w ++ cs, ?_, by rw [append_assoc]⟩
  simp only [Format.list, if_pos hle, hw, hcs]
  rfl

/-! ## Machine words -/

theorem lt_of_pack_uint {n v : ℕ} (h : (uint n).pack v ≠ none) : v < 256 ^ n := by
  by_contra hge
  exact h (if_neg hge)

def uint8 : Format UInt8 := record UInt8.toNat UInt8.ofNat (fun _ => UInt8.ofNat_toNat) (uint 1)

def uint16 : Format UInt16 :=
  record UInt16.toNat UInt16.ofNat (fun _ => UInt16.ofNat_toNat) (uint 2)

def uint32 : Format UInt32 :=
  record UInt32.toNat UInt32.ofNat (fun _ => UInt32.ofNat_toNat) (uint 4)

def uint64 : Format UInt64 :=
  record UInt64.toNat UInt64.ofNat (fun _ => UInt64.ofNat_toNat) (uint 8)

theorem isCanonical_uint8 : uint8.IsCanonical :=
  (isCanonical_uint 1).record fun _ h => UInt8.toNat_ofNat_of_lt' (lt_of_pack_uint h)

def varint32 : Format UInt32 :=
  record UInt32.toNat UInt32.ofNat (fun _ => UInt32.ofNat_toNat) varint

def bytes (limit : ℕ) : Format Bytes := list limit uint8

theorem isCanonical_bytes (limit : ℕ) : (bytes limit).IsCanonical := isCanonical_uint8.list limit

/-! ## Containers -/

/-- A flag, in a byte that must be 0 or 1. -/
def bool : Format Bool where
  pack b := some [if b then 1 else 0]
  unpack r := do
    let b ← uint8.unpack r
    require (b.toNat ≤ 1)
    pure (b ≠ 0)
  unpack_pack := by
    intro r _ b bs h rest
    cases h
    cases b <;> rfl

/-- A value behind the number of its alternative. -/
def tagged (tag : ℕ) (f : Format α) : Format α where
  pack a := do
    let which ← varint.pack tag
    let bs ← f.pack a
    pure (which ++ bs)
  unpack r := do
    let which ← varint.unpack r
    require (which = tag)
    f.unpack r
  unpack_pack := by
    intro r hr a bs h rest
    obtain ⟨which, hwhich, h⟩ := Option.bind_eq_some_iff.mp h
    obtain ⟨cs, hcs, h⟩ := Option.bind_eq_some_iff.mp h
    cases h
    rw [append_assoc, bind_of_some (varint.unpack_pack hr hwhich _),
      bind_of_some (require_of_pos rfl)]
    exact f.unpack_pack hr hcs rest

def option (f : Format α) : Format (Option α) where
  pack
    | none => some [0]
    | some a => (f.pack a).map (1 :: ·)
  unpack r := do
    let present ← bool.unpack r
    if present then do
      let a ← f.unpack r
      pure (some a)
    else pure none
  unpack_pack := by
    intro r hr o bs h rest
    cases o with
    | none =>
      cases h
      rfl
    | some a =>
      obtain ⟨w, hw, rfl⟩ := Option.map_eq_some_iff.mp h
      have hflag : bool.unpack r (1 :: (w ++ rest)) = some (true, w ++ rest) := rfl
      rw [cons_append, bind_of_some hflag, if_pos rfl, bind_of_some (f.unpack_pack hr hw rest)]
      rfl

section Sorted

variable {κ : Type} (key : κ → ℕ) (hkey : Function.Injective key)

/-- The elements in the order of their keys. -/
def sortBy (s : Finset κ) : List κ :=
  Quot.liftOn s.val (insertionSort fun a b => key a ≤ key b) fun a b h =>
    have : IsTrans κ fun a b => key a ≤ key b := ⟨fun _ _ _ hab hbc => hab.trans hbc⟩
    have : Std.Antisymm fun a b => key a ≤ key b := ⟨fun _ _ hab hba => hkey (hab.antisymm hba)⟩
    have : Std.Total fun a b => key a ≤ key b := ⟨fun a b => Nat.le_total (key a) (key b)⟩
    Perm.eq_of_pairwise' (pairwise_insertionSort _ a) (pairwise_insertionSort _ b)
      (((perm_insertionSort _ a).trans h).trans (perm_insertionSort _ b).symm)

theorem mem_sortBy {s : Finset κ} {k : κ} : k ∈ sortBy key hkey s ↔ k ∈ s := by
  obtain ⟨m, hm⟩ := s
  induction m using Quot.inductionOn with
  | h l => exact (perm_insertionSort _ l).mem_iff

variable [DecidableEq κ]

theorem toFinset_sortBy (s : Finset κ) : (sortBy key hkey s).toFinset = s := by
  ext k
  rw [mem_toFinset, mem_sortBy]

def flatSet (limit : ℕ) (f : Format κ) : Format (Finset κ) :=
  record (sortBy key hkey) toFinset (toFinset_sortBy key hkey) (list limit f)

/-- The rows of a table in the order of their keys. -/
def rows (t : Table κ α) : List (κ × α) :=
  (sortBy key hkey t.keys).filterMap fun k => (t.lookup k).map (k, ·)

/-- The table of the rows; the first row of a key stays. -/
def ofRows (l : List (κ × α)) : Table κ α :=
  (l.map fun row => (⟨row.1, row.2⟩ : Σ _ : κ, α)).toFinmap

theorem lookup_ofRows_of_forall {l : List (κ × α)} {t : Table κ α}
    (h : ∀ k v, (k, v) ∈ l → t.lookup k = some v) (k : κ) :
    (ofRows l).lookup k = if k ∈ l.map Prod.fst then t.lookup k else none := by
  rw [ofRows, dlookup_list_toFinmap]
  induction l with
  | nil => simp
  | cons row l ih =>
    rw [map_cons]
    by_cases hk : k = row.1
    · subst hk
      rw [dlookup_cons_eq, if_pos (by simp), h row.1 row.2 mem_cons_self]
    · have hiff : k ∈ (row :: l).map Prod.fst ↔ k ∈ l.map Prod.fst := by simp [hk]
      rw [dlookup_cons_ne _ _ hk, ih fun k v hv => h k v (mem_cons_of_mem _ hv)]
      exact if_congr hiff.symm rfl rfl

theorem ofRows_rows (t : Table κ α) : ofRows (rows key hkey t) = t := by
  apply ext_lookup
  intro k
  have hrow : ∀ k v, (k, v) ∈ rows key hkey t → t.lookup k = some v := by
    intro k v hmem
    obtain ⟨k', -, hk'⟩ := mem_filterMap.mp hmem
    obtain ⟨v', hv', heq⟩ := Option.map_eq_some_iff.mp hk'
    cases heq
    exact hv'
  rw [lookup_ofRows_of_forall hrow]
  split
  · rfl
  · next hnone =>
    cases hv : t.lookup k with
    | none => rfl
    | some v =>
      refine absurd (mem_map.mpr ⟨(k, v), mem_filterMap.mpr ⟨k, ?_, ?_⟩, rfl⟩) hnone
      · exact (mem_sortBy key hkey).mpr (mem_keys.mpr (Table.mem_of_lookup hv))
      · rw [hv]
        rfl

def flatMap (limit : ℕ) (f : Format κ) (g : Format α) : Format (Table κ α) :=
  record (rows key hkey) ofRows (ofRows_rows key hkey) (list limit (prod f g))

end Sorted

end Format

end Inery.Foundation
