import Mathlib.Tactic
import Ucore.Lib.CString
import Ucore.Lib.Prog

/-!
# The memory node of the device tree

`extract_memory_info` of `kern/driver/dtb.c`, on the bytes of the structure block of a flattened
device tree. The block is scanned token by token, with one flag for the nesting: `FDT_BEGIN_NODE`
sets it where the name starts with `memory`, and only `FDT_END_NODE` clears it, so that it stays set
in the first child of such a node.

## Trees and their bytes

A tree is a `Forest` of named nodes with properties and children, and `encode` gives its tokens.
The scan of an encoded forest is computed by induction over the forest: it collects the properties
`reg` that the flag lets through, in the order of the tokens, and answers the first one
(`scan_forest`). So the result no longer speaks of bytes, and what is left is to compare the
properties that the flag lets through with those of nodes whose name is `memory` or begins with
`memory@`.

The main result is `extract_finds_iff`.
-/

namespace Ucore.Fdt

open Bytes

/-- What ends a scan without a result. -/
inductive Fault
  /-- The structure block is left. -/
  | outside
  /-- The loop has not ended in the rounds it was given. -/
  | rounds
  deriving DecidableEq, Repr

/-! ## The scan -/

/-- `fdt32_to_cpu`; shifts and masks are divisions and remainders. -/
@[irreducible] def fdt32ToCpu (x : ℕ) : ℕ :=
  x % 256 * 2 ^ 24 + x / 2 ^ 8 % 256 * 2 ^ 16 + x / 2 ^ 16 % 256 * 2 ^ 8 + x / 2 ^ 24 % 256

@[irreducible] def fdt64ToCpu (x : ℕ) : ℕ := fdt32ToCpu (x % 2 ^ 32) * 2 ^ 32 + fdt32ToCpu
    (x / 2 ^ 32)

/-- A word of 32 bits, as a little-endian machine loads it. -/
@[irreducible] def load32 (block : List UInt8) (pos : ℕ) : Except Fault ℕ :=
  match block.drop pos with
  | b₀ :: b₁ :: b₂ :: b₃ :: _ =>
    .ok (b₀.toNat + b₁.toNat * 2 ^ 8 + b₂.toNat * 2 ^ 16 + b₃.toNat * 2 ^ 24)
  | _ => .error .outside

/-- A word of 64 bits. -/
@[irreducible] def load64 (block : List UInt8) (pos : ℕ) : Except Fault ℕ := do
  let low ← load32 block pos
  let high ← load32 block (pos + 4)
  pure (low + high * 2 ^ 32)

/-- `strlen`, of a string in the block. -/
def strlen : List UInt8 → Except Fault ℕ
  | [] => .error .outside
  | c :: cs => if c = 0 then .ok 0 else do
    let n ← strlen cs
    pure (n + 1)

/-- `memory`. -/
def memoryName : List UInt8 := [109, 101, 109, 111, 114, 121]

theorem memoryName_ne_zero : ∀ c ∈ memoryName, c ≠ 0 := by
  simp [memoryName]

/-- `reg`. -/
def regName : List UInt8 := [114, 101, 103]

/-- `(pos + 3) & ~3`. -/
def align (pos : ℕ) : ℕ := (pos + 3) / 4 * 4

/-- The loop of `extract_memory_info`: the base and the size for which it returns 0, or none where
it returns -1. Positions count from the start of the structure block, which is aligned, and `names`
are the strings of the strings block by their offsets. The length of a name fits an `int`. -/
def scan (block : List UInt8) (names : ℕ → List UInt8) :
    ℕ → ℕ → Bool → Except Fault (Option (ℕ × ℕ))
  | 0, _, _ => .error .rounds
  | fuel + 1, pos, inMemoryNode => do
    let token ← load32 block pos
    if fdt32ToCpu token = 1 then do
      let nameLen ← strlen (block.drop (pos + 4))
      scan block names fuel (align (pos + 4 + nameLen + 1))
        (memoryName.isPrefixOf (block.drop (pos + 4)) || inMemoryNode)
    else if fdt32ToCpu token = 2 then scan block names fuel (pos + 4) false
    else if fdt32ToCpu token = 3 then do
      let propLen ← load32 block (pos + 4)
      let nameoff ← load32 block (pos + 8)
      if inMemoryNode = true ∧ names (fdt32ToCpu nameoff) = regName ∧ 16 ≤ fdt32ToCpu propLen then
        do
        let base ← load64 block (pos + 12)
        let size ← load64 block (pos + 20)
        pure (some (fdt64ToCpu base, fdt64ToCpu size))
      else scan block names fuel (align (pos + 12 + fdt32ToCpu propLen)) inMemoryNode
    else if fdt32ToCpu token = 4 then scan block names fuel (pos + 4) inMemoryNode
    else pure none

def extractMemoryInfo (block : List UInt8) (names : ℕ → List UInt8) :
    Except Fault (Option (ℕ × ℕ)) :=
  scan block names (block.length + 1) 0 false

/-! ## Device trees -/

/-- A property: the offset of its name, and its value. -/
structure Property where
  nameoff : ℕ
  data : List UInt8
  nameoff_lt : nameoff < 2 ^ 32
  length_lt : data.length < 2 ^ 32

/-- A list of nodes, each with the NOP tokens in front of it, its name, its properties with the NOP
tokens in front of them, its children, the NOP tokens in front of its end, and the nodes that follow
it. -/
inductive Forest
  | nil
  | node (nops : ℕ) (name : CStr) (props : List (ℕ × Property)) (children : Forest) (endNops : ℕ)
      (siblings : Forest)

/-- A big-endian word. -/
def word (x : ℕ) : List UInt8 :=
  [UInt8.ofNat (x / 2 ^ 24), UInt8.ofNat (x / 2 ^ 16), UInt8.ofNat (x / 2 ^ 8), UInt8.ofNat x]

/-- Zeros up to a multiple of four. -/
def padding (n : ℕ) : List UInt8 := List.replicate (align n - n) 0

/-- NOP tokens. -/
def nopTokens : ℕ → List UInt8
  | 0 => []
  | n + 1 => word 4 ++ nopTokens n

def nameBytes (name : CStr) : List UInt8 :=
  name.val ++ (0 :: padding (name.val.length + 1))

def Property.encode (p : Property) : List UInt8 :=
  word 3 ++ (word p.data.length ++ (word p.nameoff ++ (p.data ++ padding p.data.length)))

def encodeProps : List (ℕ × Property) → List UInt8
  | [] => []
  | p :: ps => nopTokens p.1 ++ (p.2.encode ++ encodeProps ps)

namespace Forest

/-- The bytes of a list of nodes in the structure block. -/
def encode : Forest → List UInt8
  | nil => []
  | node nops name props children endNops siblings =>
    nopTokens nops ++ (word 1 ++ (nameBytes name ++ (encodeProps props ++ (children.encode ++
      (nopTokens endNops ++ (word 2 ++ siblings.encode))))))

/-- The structure block: the nodes, NOP tokens and the end token. -/
def block (F : Forest) (nops : ℕ) : List UInt8 := F.encode ++ (nopTokens nops ++ word 9)

end Forest

/-- A number from big-endian bytes. -/
def bigEndian (bs : List UInt8) : ℕ := bs.foldl (fun k b ↦ k * 256 + b.toNat) 0

namespace Property

/-- The base address that a `reg` property starts with. -/
def base (p : Property) : ℕ := bigEndian (p.data.take 8)

/-- The size that follows it. -/
def size (p : Property) : ℕ := bigEndian ((p.data.drop 8).take 8)

/-- A `reg` property of at least 16 bytes. -/
def IsReg (names : ℕ → List UInt8) (p : Property) : Prop :=
  names p.nameoff = regName ∧ 16 ≤ p.data.length

instance (names : ℕ → List UInt8) (p : Property) : Decidable (p.IsReg names) :=
  inferInstanceAs (Decidable (_ ∧ _))

end Property

/-- The name is `memory`, or `memory@` and an address. -/
def IsMemory (name : CStr) : Prop :=
  name.val = memoryName ∨ (memoryName ++ [64]).isPrefixOf name.val = true

instance (name : CStr) : Decidable (IsMemory name) := inferInstanceAs (Decidable (_ ∨ _))

/-- The `reg` properties of a node, with its name. -/
def regsOf (names : ℕ → List UInt8) (name : CStr) (props : List (ℕ × Property)) :
    List (CStr × Property) :=
  (props.filter fun p ↦ p.2.IsReg names).map fun p ↦ (name, p.2)

namespace Forest

/-- The `reg` properties that belong directly to a memory node, in their order. -/
def memoryRegs (names : ℕ → List UInt8) : Forest → List (CStr × Property)
  | nil => []
  | node _ name props children _ siblings =>
    (if IsMemory name then regsOf names name props else []) ++
      (children.memoryRegs names ++ siblings.memoryRegs names)

/-- The `reg` properties of the nodes whose names start with `memory`, of their first children, of
the first children of these, and so on; `below` says that the first node of the list is such a
child. -/
def nearRegs (names : ℕ → List UInt8) : Bool → Forest → List (CStr × Property)
  | _, nil => []
  | below, node _ name props children _ siblings =>
    (if (memoryName.isPrefixOf name.val || below) = true then regsOf names name props else []) ++
      (children.nearRegs names (memoryName.isPrefixOf name.val || below) ++
        siblings.nearRegs names false)

end Forest

/-- The value that is asked for: the base and the size of the first `reg` property of a memory
node. -/
def wanted (names : ℕ → List UInt8) (F : Forest) : Option (ℕ × ℕ) :=
  ((F.memoryRegs names).head?).map fun r ↦ (r.2.base, r.2.size)

/-! ## Words -/

section Words

variable {block rest : List UInt8} {pos x : ℕ}

theorem drop_add_of_drop {bs : List UInt8} (h : block.drop pos = bs ++ rest) :
    block.drop (pos + bs.length) = rest := by
  rw [← List.drop_drop, h, List.drop_left]

theorem drop_word (h : block.drop pos = word x ++ rest) : block.drop (pos + 4) = rest :=
  drop_add_of_drop h

/-- The bytes of a word are turned round. -/
theorem fdt32ToCpu_bytes {a b c d : ℕ} (ha : a < 256) (hb : b < 256) (hc : c < 256)
    (hd : d < 256) : fdt32ToCpu (a + b * 2 ^ 8 + c * 2 ^ 16 + d * 2 ^ 24) =
      a * 2 ^ 24 + b * 2 ^ 16 + c * 2 ^ 8 + d := by
  have h₀ : (a + b * 2 ^ 8 + c * 2 ^ 16 + d * 2 ^ 24) % 256 = a := by omega
  have h₁ : (a + b * 2 ^ 8 + c * 2 ^ 16 + d * 2 ^ 24) / 2 ^ 8 % 256 = b := by omega
  have h₂ : (a + b * 2 ^ 8 + c * 2 ^ 16 + d * 2 ^ 24) / 2 ^ 16 % 256 = c := by omega
  have h₃ : (a + b * 2 ^ 8 + c * 2 ^ 16 + d * 2 ^ 24) / 2 ^ 24 % 256 = d := by omega
  rw [fdt32ToCpu, h₀, h₁, h₂, h₃]

/-- The digits of a number to base 256. -/
theorem sum_bytes (hx : x < 2 ^ 32) :
    x / 2 ^ 24 % 256 * 2 ^ 24 + x / 2 ^ 16 % 256 * 2 ^ 16 + x / 2 ^ 8 % 256 * 2 ^ 8 + x % 256 =
      x := by
  have h₂ : x / 2 ^ 16 = x / 2 ^ 8 / 256 := by
    rw [Nat.div_div_eq_div_mul]
    norm_num
  have h₃ : x / 2 ^ 24 = x / 2 ^ 8 / 256 / 256 := by
    rw [Nat.div_div_eq_div_mul, Nat.div_div_eq_div_mul]
    norm_num
  rw [h₂, h₃]
  omega

/-- A word is read as it was written. -/
theorem load32_word (h : block.drop pos = word x ++ rest) (hx : x < 2 ^ 32) :
    ∃ t, load32 block pos = .ok t ∧ fdt32ToCpu t = x := by
  refine ⟨_, by rw [load32, h]; rfl, ?_⟩
  simp only [UInt8.toNat_ofNat']
  rw [fdt32ToCpu_bytes (Nat.mod_lt _ (by decide)) (Nat.mod_lt _ (by decide))
    (Nat.mod_lt _ (by decide)) (Nat.mod_lt _ (by decide))]
  exact sum_bytes hx

theorem word_length (x : ℕ) : (word x).length = 4 := rfl

/-- Eight bytes are read as a big-endian number. -/
theorem load64_bytes {bs : List UInt8} (h : block.drop pos = bs ++ rest) (hlen : bs.length = 8) :
    ∃ t, load64 block pos = .ok t ∧ fdt64ToCpu t = bigEndian bs := by
  rcases bs with _ | ⟨b₀, _ | ⟨b₁, _ | ⟨b₂, _ | ⟨b₃, _ | ⟨b₄, _ | ⟨b₅, _ | ⟨b₆, _ | ⟨b₇, bs⟩⟩⟩⟩⟩⟩⟩⟩
  iterate 8 exact absurd hlen (by simp)
  have hnil : bs = [] := List.eq_nil_of_length_eq_zero (by simpa using hlen)
  subst hnil
  have hhigh : block.drop (pos + 4) = [b₄, b₅, b₆, b₇] ++ rest := by
    have hsplit : block.drop pos = [b₀, b₁, b₂, b₃] ++ ([b₄, b₅, b₆, b₇] ++ rest) := h
    exact drop_add_of_drop hsplit
  have hlow := fdt32ToCpu_bytes b₀.toNat_lt b₁.toNat_lt b₂.toNat_lt b₃.toNat_lt
  have hnext := fdt32ToCpu_bytes b₄.toNat_lt b₅.toNat_lt b₆.toNat_lt b₇.toNat_lt
  have hlt : b₀.toNat + b₁.toNat * 2 ^ 8 + b₂.toNat * 2 ^ 16 + b₃.toNat * 2 ^ 24 < 2 ^ 32 := by
    have h₀ := b₀.toNat_lt
    have h₁ := b₁.toNat_lt
    have h₂ := b₂.toNat_lt
    have h₃ := b₃.toNat_lt
    omega
  refine ⟨_, by rw [load64, load32, load32, h, hhigh]; rfl, ?_⟩
  rw [fdt64ToCpu, Nat.add_mul_mod_self_right, Nat.mod_eq_of_lt hlt, Nat.add_mul_div_right _ _
    (by decide), Nat.div_eq_of_lt hlt, Nat.zero_add, hlow, hnext]
  simp only [bigEndian, List.foldl_cons, List.foldl_nil]
  ring

theorem strlen_name (name : CStr) : strlen (name.val ++ 0 :: rest) = .ok name.val.length := by
  obtain ⟨cs, hcs⟩ := name
  induction cs with
  | nil => rfl
  | cons c cs ih =>
    change strlen (c :: (cs ++ 0 :: rest)) = _
    rw [strlen, if_neg (hcs c List.mem_cons_self),
      ih fun c' hc' ↦ hcs c' (List.mem_cons_of_mem _ hc')]
    rfl

/-- Whether a name starts with `memory` can be seen in front of its terminating zero. -/
theorem isPrefixOf_name (m : List UInt8) (hm : ∀ c ∈ m, c ≠ 0) (cs : List UInt8) :
    m.isPrefixOf (cs ++ 0 :: rest) = m.isPrefixOf cs := by
  induction m generalizing cs with
  | nil => rfl
  | cons c m ih =>
    have hc := hm c List.mem_cons_self
    cases cs with
    | nil =>
      change (c == 0 && m.isPrefixOf rest) = false
      rw [beq_false_of_ne hc, Bool.false_and]
    | cons c' cs =>
      change (c == c' && m.isPrefixOf (cs ++ 0 :: rest)) = (c == c' && m.isPrefixOf cs)
      rw [ih fun x hx ↦ hm x (List.mem_cons_of_mem _ hx)]

theorem align_add (hpos : 4 ∣ pos) (n : ℕ) : align (pos + n) = pos + align n := by
  unfold align
  omega

theorem le_align (n : ℕ) : n ≤ align n := by
  unfold align
  omega

theorem dvd_align (n : ℕ) : 4 ∣ align n := Nat.dvd_mul_left 4 _

theorem nameBytes_length (name : CStr) :
    (nameBytes name).length = align (name.val.length + 1) := by
  have hle := le_align (name.val.length + 1)
  rw [nameBytes, List.length_append, List.length_cons, padding, List.length_replicate]
  omega

theorem Property.encode_length (p : Property) : p.encode.length = 12 + align p.data.length := by
  have hle := le_align p.data.length
  simp only [Property.encode, List.length_append, word_length, padding, List.length_replicate]
  omega

theorem nopTokens_length (n : ℕ) : (nopTokens n).length = 4 * n := by
  induction n with
  | zero => rfl
  | succ n ih =>
    rw [nopTokens, List.length_append, word_length, ih]
    omega

end Words

/-! ## The tokens of a tree -/

/-- The first of some properties ends the scan, and otherwise it goes on. -/
def answer : List (CStr × Property) → Except Fault (Option (ℕ × ℕ)) →
    Except Fault (Option (ℕ × ℕ))
  | [], next => next
  | r :: _, _ => .ok (some (r.2.base, r.2.size))

theorem answer_append (rs rs' : List (CStr × Property)) (next : Except Fault (Option (ℕ × ℕ))) :
    answer (rs ++ rs') next = answer rs (answer rs' next) := by
  cases rs <;> rfl

/-- The tokens of properties. -/
def propTokens : List (ℕ × Property) → ℕ
  | [] => 0
  | p :: ps => propTokens ps + 1 + p.1

namespace Forest

/-- The tokens of a list of nodes. -/
def tokens : Forest → ℕ
  | nil => 0
  | node nops _ props children endNops siblings =>
    siblings.tokens + 1 + endNops + children.tokens + propTokens props + 1 + nops

/-- The flag behind a list of nodes. -/
def after (below : Bool) : Forest → Bool
  | nil => below
  | node _ _ _ _ _ _ => false

end Forest

section Scan

variable {block rest : List UInt8} {names : ℕ → List UInt8} {pos : ℕ} {flag : Bool}

theorem scan_nops {n : ℕ} (h : block.drop pos = nopTokens n ++ rest) (fuel : ℕ) :
    scan block names (fuel + n) pos flag = scan block names fuel (pos + 4 * n) flag := by
  induction n generalizing pos with
  | zero => rfl
  | succ n ih =>
    rw [nopTokens, List.append_assoc] at h
    obtain ⟨t, hload, ht⟩ := load32_word h (by decide)
    have hstep : scan block names (fuel + n + 1) pos flag =
        scan block names (fuel + n) (pos + 4) flag := by
      rw [scan, hload, Except.ok_bind, ht, if_neg (by decide), if_neg (by decide),
        if_neg (by decide), if_pos rfl]
    rw [← Nat.add_assoc, hstep, ih (drop_word h)]
    congr 1
    omega

theorem scan_end (h : block.drop pos = word 2 ++ rest) (fuel : ℕ) :
    scan block names (fuel + 1) pos flag = scan block names fuel (pos + 4) false := by
  obtain ⟨t, hload, ht⟩ := load32_word h (by decide)
  rw [scan, hload, Except.ok_bind, ht, if_neg (by decide), if_pos rfl]

theorem scan_last (h : block.drop pos = word 9 ++ rest) (fuel : ℕ) :
    scan block names (fuel + 1) pos flag = .ok none := by
  obtain ⟨t, hload, ht⟩ := load32_word h (by decide)
  rw [scan, hload, Except.ok_bind, ht, if_neg (by decide), if_neg (by decide), if_neg (by decide),
    if_neg (by decide)]
  rfl

/-- The name of a node is passed, and sets the flag or leaves it. -/
theorem scan_begin {name : CStr} (hpos : 4 ∣ pos)
    (h : block.drop pos = word 1 ++ (nameBytes name ++ rest)) (fuel : ℕ) :
    scan block names (fuel + 1) pos flag =
      scan block names fuel (pos + 4 + (nameBytes name).length)
        (memoryName.isPrefixOf name.val || flag) := by
  obtain ⟨t, hload, ht⟩ := load32_word h (by decide)
  have hname : block.drop (pos + 4) =
      name.val ++ 0 :: (padding (name.val.length + 1) ++ rest) := by
    rw [drop_word h, nameBytes, List.append_assoc, List.cons_append]
  have hnext : align (pos + 4 + name.val.length + 1) = pos + 4 + (nameBytes name).length := by
    rw [nameBytes_length, Nat.add_assoc (pos + 4), align_add (by omega)]
  rw [scan, hload, Except.ok_bind, ht, if_pos rfl, hname, strlen_name, Except.ok_bind, hnext,
    isPrefixOf_name _ memoryName_ne_zero]

/-- A property ends the scan where it is a `reg` property and the flag is set. -/
theorem scan_prop {p : Property} (hpos : 4 ∣ pos) (h : block.drop pos = p.encode ++ rest)
    (fuel : ℕ) :
    scan block names (fuel + 1) pos flag =
      if flag = true ∧ p.IsReg names then .ok (some (p.base, p.size))
      else scan block names fuel (pos + p.encode.length) flag := by
  have hbytes : block.drop pos = word 3 ++ (word p.data.length ++ (word p.nameoff ++
      (p.data ++ (padding p.data.length ++ rest)))) := by
    rw [h, Property.encode]
    simp only [List.append_assoc]
  obtain ⟨t, hload, ht⟩ := load32_word hbytes (by decide)
  have hbytes₁ := drop_word hbytes
  obtain ⟨len, hlen, hlen'⟩ := load32_word hbytes₁ p.length_lt
  have hbytes₂ := drop_word hbytes₁
  obtain ⟨off, hoff, hoff'⟩ := load32_word hbytes₂ p.nameoff_lt
  have hbytes₃ := drop_word hbytes₂
  have hnext : align (pos + 12 + p.data.length) = pos + p.encode.length := by
    rw [p.encode_length, align_add (by omega), Nat.add_assoc]
  rw [scan, hload, Except.ok_bind, ht, if_neg (by decide), if_neg (by decide), if_pos rfl, hlen,
    Except.ok_bind, show pos + 8 = pos + 4 + 4 from rfl, hoff, Except.ok_bind, hlen', hoff', hnext]
  by_cases hreg : flag = true ∧ p.IsReg names
  · rw [if_pos hreg, if_pos (by exact hreg)]
    have hlong : 16 ≤ p.data.length := hreg.2.2
    have hbase : block.drop (pos + 12) =
        p.data.take 8 ++ (p.data.drop 8 ++ (padding p.data.length ++ rest)) := by
      rw [← List.append_assoc, List.take_append_drop]
      exact hbytes₃
    have hsize : block.drop (pos + 20) = (p.data.drop 8).take 8 ++ ((p.data.drop 8).drop 8 ++
        (padding p.data.length ++ rest)) := by
      rw [← List.append_assoc, List.take_append_drop]
      have := drop_add_of_drop hbase
      rwa [List.length_take_of_le (by omega)] at this
    obtain ⟨b, hb, hb'⟩ := load64_bytes hbase (by rw [List.length_take]; omega)
    obtain ⟨z, hz, hz'⟩ := load64_bytes hsize (by rw [List.length_take, List.length_drop]; omega)
    rw [hb, Except.ok_bind, hz, Except.ok_bind, hb', hz']
    rfl
  · rw [if_neg hreg, if_neg (by exact hreg)]

theorem encodeProps_dvd (ps : List (ℕ × Property)) :
    4 ∣ (encodeProps ps).length ∧ 4 * propTokens ps ≤ (encodeProps ps).length := by
  induction ps with
  | nil => exact ⟨Nat.dvd_zero 4, le_rfl⟩
  | cons p ps ih =>
    have hdvd := dvd_align p.2.data.length
    rw [encodeProps, List.length_append, List.length_append, nopTokens_length, p.2.encode_length,
      propTokens]
    omega

theorem Forest.encode_dvd (F : Forest) :
    4 ∣ F.encode.length ∧ 4 * F.tokens ≤ F.encode.length := by
  induction F with
  | nil => exact ⟨Nat.dvd_zero 4, le_rfl⟩
  | node nops name props children endNops siblings ihc ihs =>
    have hname := dvd_align (name.val.length + 1)
    have hprops := encodeProps_dvd props
    simp only [Forest.encode, Forest.tokens, List.length_append, nopTokens_length, word_length,
      nameBytes_length]
    omega

/-- The properties of a node: the first `reg` property among them ends the scan, where the flag is
set. -/
theorem scan_props (name : CStr) {ps : List (ℕ × Property)} (hpos : 4 ∣ pos)
    (h : block.drop pos = encodeProps ps ++ rest) (fuel : ℕ) :
    scan block names (fuel + propTokens ps) pos flag =
      answer (if flag = true then regsOf names name ps else [])
        (scan block names fuel (pos + (encodeProps ps).length) flag) := by
  induction ps generalizing pos with
  | nil =>
    have hnone : (if flag = true then regsOf names name [] else []) = [] := ite_self []
    rw [hnone]
    rfl
  | cons p ps ih =>
    rw [encodeProps, List.append_assoc, List.append_assoc] at h
    have hprop := drop_add_of_drop h
    rw [nopTokens_length] at hprop
    have hdvd := dvd_align p.2.data.length
    have hlen := p.2.encode_length
    have halign : 4 ∣ pos + 4 * p.1 + p.2.encode.length := by omega
    have hrest := ih halign (drop_add_of_drop hprop)
    have hnext : pos + 4 * p.1 + p.2.encode.length + (encodeProps ps).length =
        pos + (encodeProps (p :: ps)).length := by
      rw [encodeProps, List.length_append, List.length_append, nopTokens_length]
      omega
    rw [propTokens, ← Nat.add_assoc, ← Nat.add_assoc, scan_nops h,
      scan_prop (by omega) hprop, hrest, hnext]
    unfold regsOf
    by_cases hflag : flag = true
    · by_cases hreg : p.2.IsReg names
      · rw [if_pos ⟨hflag, hreg⟩, if_pos hflag, List.filter_cons_of_pos (by simpa using hreg)]
        rfl
      · rw [if_neg fun h ↦ hreg h.2, if_pos hflag, if_pos hflag,
          List.filter_cons_of_neg (by simpa using hreg)]
    · rw [if_neg fun h ↦ hflag h.1, if_neg hflag, if_neg hflag]

/-- The scan of a list of nodes. The induction carries the flag: below a node whose name starts with
`memory` it is set for the first child, and behind every node it is clear. -/
theorem scan_forest (F : Forest) (hpos : 4 ∣ pos) (h : block.drop pos = F.encode ++ rest)
    (fuel : ℕ) :
    scan block names (fuel + F.tokens) pos flag =
      answer (F.nearRegs names flag)
        (scan block names fuel (pos + F.encode.length) (F.after flag)) := by
  induction F generalizing pos rest fuel flag with
  | nil => rfl
  | node nops name props children endNops siblings ihc ihs =>
    simp only [Forest.encode, List.append_assoc] at h
    have h₁ := drop_add_of_drop h
    rw [nopTokens_length] at h₁
    have h₂ := drop_add_of_drop (drop_word h₁)
    have h₃ := drop_add_of_drop h₂
    have h₄ := drop_add_of_drop h₃
    have h₅ := drop_add_of_drop h₄
    rw [nopTokens_length] at h₅
    have h₆ := drop_word h₅
    have hname := dvd_align (name.val.length + 1)
    have hlen := nameBytes_length name
    have hprops := (encodeProps_dvd props).1
    have hchildren := children.encode_dvd.1
    have hnext : pos + 4 * nops + 4 + (nameBytes name).length + (encodeProps props).length +
        children.encode.length + 4 * endNops + 4 + siblings.encode.length =
        pos + (Forest.node nops name props children endNops siblings).encode.length := by
      simp only [Forest.encode, List.length_append, nopTokens_length, word_length]
      omega
    rw [Forest.tokens, ← Nat.add_assoc, ← Nat.add_assoc, ← Nat.add_assoc, ← Nat.add_assoc,
      ← Nat.add_assoc, ← Nat.add_assoc, scan_nops h, scan_begin (by omega) h₁,
      scan_props name (by omega) h₂, ihc (by omega) h₃, scan_nops h₄, scan_end h₅,
      ihs (by omega) h₆, hnext, Forest.nearRegs, answer_append, answer_append]
    cases siblings <;> rfl

end Scan

/-- The scan of a whole block ends inside it, with the first of the properties for which the flag is
set. -/
theorem extractMemoryInfo_eq (names : ℕ → List UInt8) (F : Forest) (nops : ℕ) :
    extractMemoryInfo (F.block nops) names =
      .ok (((F.nearRegs names false).head?).map fun r ↦ (r.2.base, r.2.size)) := by
  have htokens := F.encode_dvd.2
  have hlen : (F.block nops).length = F.encode.length + (4 * nops + 4) := by
    rw [Forest.block, List.length_append, List.length_append, nopTokens_length, word_length]
  have h₀ : (F.block nops).drop 0 = F.encode ++ (nopTokens nops ++ word 9) := rfl
  have h₁ := drop_add_of_drop h₀
  have h₂ := drop_add_of_drop h₁
  rw [nopTokens_length, ← List.append_nil (word 9)] at h₂
  obtain ⟨fuel, hfuel⟩ : ∃ n, (F.block nops).length + 1 = n + 1 + nops + F.tokens :=
    ⟨(F.block nops).length - nops - F.tokens, by omega⟩
  rw [extractMemoryInfo, hfuel, scan_forest F (Nat.dvd_zero 4) h₀, scan_nops h₁, scan_last h₂]
  cases F.nearRegs names false <;> rfl

/-! ## The memory node -/

theorem isPrefixOf_of_isMemory {name : CStr} (h : IsMemory name) :
    memoryName.isPrefixOf name.val = true := by
  rw [List.isPrefixOf_iff_prefix]
  rcases h with h | h
  · rw [h]
  · rw [List.isPrefixOf_iff_prefix] at h
    exact (List.prefix_append memoryName [64]).trans h

theorem filter_regsOf (names : ℕ → List UInt8) (name : CStr) (ps : List (ℕ × Property)) :
    (regsOf names name ps).filter (fun r ↦ IsMemory r.1) =
      if IsMemory name then regsOf names name ps else [] := by
  have hname : ∀ r ∈ regsOf names name ps, r.1 = name := by
    intro r hr
    obtain ⟨p, -, rfl⟩ := List.mem_map.mp hr
    rfl
  split_ifs with hmem
  · exact List.filter_eq_self.mpr fun r hr ↦ by rw [hname r hr]; exact decide_eq_true hmem
  · exact List.filter_eq_nil_iff.mpr fun r hr ↦ by rw [hname r hr]; simpa using hmem

/-- The properties of memory nodes are among those for which the flag is set. -/
theorem memoryRegs_eq_filter (names : ℕ → List UInt8) (F : Forest) (below : Bool) :
    F.memoryRegs names = (F.nearRegs names below).filter fun r ↦ IsMemory r.1 := by
  induction F generalizing below with
  | nil => rfl
  | node nops name props children endNops siblings ihc ihs =>
    rw [Forest.memoryRegs, Forest.nearRegs, List.filter_append, List.filter_append,
      ← ihc (memoryName.isPrefixOf name.val || below), ← ihs false]
    congr 1
    by_cases hmem : IsMemory name
    · rw [isPrefixOf_of_isMemory hmem, Bool.true_or, if_pos rfl, filter_regsOf]
    · rw [if_neg hmem]
      split_ifs
      · rw [filter_regsOf, if_neg hmem]
      · rfl

/-- The scan of a well-formed block ends inside it. It finds the base and the size of the first
`reg` property of a memory node exactly when the first `reg` property near a node whose name starts
with `memory` belongs to a memory node, or has the same base and size. -/
theorem extract_finds_iff (names : ℕ → List UInt8) (F : Forest) (nops : ℕ) :
    (∃ r, extractMemoryInfo (F.block nops) names = .ok r) ∧
      (extractMemoryInfo (F.block nops) names = .ok (wanted names F) ↔
        ∀ r, (F.nearRegs names false).head? = some r →
          IsMemory r.1 ∨ wanted names F = some (r.2.base, r.2.size)) := by
  rw [extractMemoryInfo_eq]
  refine ⟨⟨_, rfl⟩, ?_⟩
  have hwanted : wanted names F = (((F.nearRegs names false).filter fun r ↦ IsMemory r.1).head?).map
      fun r ↦ (r.2.base, r.2.size) := by
    rw [wanted, memoryRegs_eq_filter names F false]
  cases hnear : F.nearRegs names false with
  | nil =>
    rw [hnear] at hwanted
    rw [hwanted]
    exact iff_of_true rfl nofun
  | cons r rs =>
    rw [hnear] at hwanted
    by_cases hmem : IsMemory r.1
    · rw [List.filter_cons_of_pos (by simpa using hmem)] at hwanted
      rw [hwanted]
      refine iff_of_true rfl ?_
      rintro _ ⟨⟩
      exact .inl hmem
    · constructor
      · rintro h _ ⟨⟩
        exact .inr (Except.ok.inj h).symm
      · intro h
        rw [(h r rfl).resolve_left hmem]
        rfl

/-- `memory-controller@0`. -/
def controllerName : CStr :=
  ⟨memoryName ++ [45, 99, 111, 110, 116, 114, 111, 108, 108, 101, 114, 64, 48], by
    simp [memoryName]⟩

/-- A tree whose root has a node `memory-controller@0` with a `reg` property, in front of the node
`memory`. -/
def controllerFirst : Forest :=
  .node 0 ⟨[], by simp⟩ []
    (.node 0 controllerName [(0, ⟨0, List.replicate 16 1, by decide, by decide⟩)] .nil 0
      (.node 0 ⟨memoryName, memoryName_ne_zero⟩
        [(0, ⟨0, List.replicate 16 2, by decide, by decide⟩)] .nil 0 .nil)) 0 .nil

/-- The scan takes the name of the controller for that of the memory node. -/
theorem extract_prefix :
    extractMemoryInfo (controllerFirst.block 0) (fun _ ↦ regName) ≠
      .ok (wanted (fun _ ↦ regName) controllerFirst) := by
  rw [extractMemoryInfo_eq]
  exact fun h ↦ absurd (Except.ok.inj h) (by decide)

end Ucore.Fdt
