import Octiron.Kernel.DeviceDecoded
import Octiron.Kernel.DeviceRequests

/-!
# What a blob comes to

`dt_initialize` on the mapped pages of a blob: the reservation block, the structure block and the rewrite
pass.

* `DtbWellFormed` — the bytes of the blob are a header, an empty reservation block, a structure block that
  encodes a tree, and its strings.
* `DtbWellFormed.names_load` — every name that the loop copies is inside of the blob.
* `FdtTree.pages` — the pages that reading a tree takes.
* **Main result** (`DtbWellFormed.blocks`): the reading of a well-formed blob takes these pages and ends as
  its tree says, or an array does not get its pages.
* `flattenBlob` — a blob with a header, written from a tree.
* `dtbWellFormed_flattenBlob` — it is a well-formed blob of the tree, so every tree of the scheme that is
  not too large has one.
-/

namespace Octiron.Kernel

open Octiron.Found
open Octiron.Found.Mem
open Octiron.Kzadhbat

variable {σ : Type}

/-! ## The blob -/

/-- The `n` bytes at `base` are the same in both memories.
Source: none: infrastructure
Kind: D -/
def SameBytes (base : Addr) (n : ℕ) (m m' : Mem) : Prop :=
  ∀ i < n, m' (base + BitVec.ofNat 64 i) = m (base + BitVec.ofNat 64 i)

/-- **A blob of a tree**: its bytes alone, as many as the header says, have the magic number, the words of
the reservation block, the first of which are not both different from zero, and a structure block and strings
that encode the tree. The values have the shapes that are read, and the copies and numbers of the tree fit
into two pages.
Source: none: the device tree format
Kind: D -/
structure DtbWellFormed (blob : Mem) (base : Addr) (t : FdtTree) : Prop where
  magic : dtbHeaderField blob base 0 = 0xD00DFEED
  header : 20 ≤ (dtbHeaderField blob base 4).toNat
  rsvmap : (dtbHeaderField blob base 16).toNat + 16 ≤ (dtbHeaderField blob base 4).toNat
  reservations : load64 blob (base + dtbHeaderField blob base 16) = 0 ∨
    load64 blob (base + dtbHeaderField blob base 16 + 8) = 0
  block : ∃ len, (dtbHeaderField blob base 8).toNat + len ≤ (dtbHeaderField blob base 4).toNat ∧
    ∀ m, SameBytes base (dtbHeaderField blob base 4).toNat blob m →
      EncodesTree ⟨bytes m (base + dtbHeaderField blob base 8) len, m, base + dtbHeaderField blob base 12,
        true, fun _ => true⟩ t
  shaped : t.forest.Shaped []
  room : t.need + t.forest.space [] ≤ 8192

/-! ## Loads -/

section loads

variable {loads : Addr → Bool} {m : Mem} {p base : Addr} {n k len : ℕ}

/-- Source: none: infrastructure. Kind: L -/
theorem loadsBytes_iff : loadsBytes loads p n = true ↔ ∀ i < n, loads (p + BitVec.ofNat 64 i) = true := by
  rw [loadsBytes, List.all_eq_true]
  exact forall_congr' fun i => by rw [List.mem_range]

/-- Part of a range.
Source: none: infrastructure
Kind: L -/
theorem loadsBytes_sub (h : loadsBytes loads base n = true) (off : BitVec 64) (hle : off.toNat + k ≤ n) :
    loadsBytes loads (base + off) k = true := by
  rw [loadsBytes_iff] at h ⊢
  intro i hi
  have hi' := h (off.toNat + i) (by omega)
  rwa [BitVec.ofNat_add, BitVec.ofNat_toNat, BitVec.setWidth_eq, ← BitVec.add_assoc] at hi'

/-- **What can be read starts with what can be loaded**.
Source: none: infrastructure
Kind: L -/
theorem readableBytes_begin (h : loadsBytes loads p len = true) (hpages : p.toNat % 4096 + len ≤ 4096 * n) :
    bytes m p len <+: readableBytes loads m n p := by
  induction n generalizing p len with
  | zero =>
      obtain rfl : len = 0 := by omega
      exact List.nil_prefix
  | succ n ih =>
      by_cases hlen : len = 0
      · rw [hlen]
        exact List.nil_prefix
      have hfirst : loads p = true := by
        have h0 := loadsBytes_iff.mp h 0 (Nat.pos_of_ne_zero hlen)
        rwa [BitVec.add_zero] at h0
      unfold readableBytes
      rw [if_pos hfirst]
      by_cases hle : len ≤ pageRest p
      · -- the last page
        obtain ⟨k, hk⟩ := Nat.exists_eq_add_of_le hle
        rw [hk, bytes_add, List.append_assoc]
        exact List.prefix_append _ _
      · obtain ⟨k, rfl⟩ := Nat.exists_eq_add_of_lt (Nat.lt_of_not_le hle)
        rw [Nat.add_assoc] at h hpages ⊢
        rw [bytes_add]
        have hrest : (BitVec.ofNat 64 (pageRest p)).toNat = pageRest p := by
          rw [BitVec.toNat_ofNat]
          unfold pageRest
          omega
        refine (List.prefix_append_right_inj _).mpr (ih ?_ ?_)
        · exact loadsBytes_sub h _ (by omega)
        · rw [BitVec.toNat_add, hrest]
          unfold pageRest at hpages ⊢
          omega

end loads

/-! ## The structure block -/

section structs

variable {env env' : DtEnv} {t : FdtTree} {ts : List FdtToken} {l : List (BitVec 8)} {off off₁ off' : ℕ}

/-- What bytes encode depends on the strings only.
Source: none: infrastructure
Kind: L -/
theorem Encodes.of_strings (h : Encodes env ts l) (hmem : env'.mem = env.mem)
    (hstrings : env'.strings = env.strings) : Encodes env' ts l := by
  induction h with
  | nil => exact .nil
  | nop _ ih => exact .nop ih
  | beginNode hpad _ ih => exact .beginNode hpad ih
  | endNode _ ih => exact .endNode ih
  | prop hlen hname hpad _ ih =>
      refine .prop hlen ?_ hpad ih
      rw [hmem, hstrings]
      exact hname

/-- A longer block encodes the same tree.
Source: none: infrastructure
Kind: L -/
theorem EncodesTree.extend (h : EncodesTree env t) (hbegin : env.structs <+: env'.structs)
    (hmem : env'.mem = env.mem) (hstrings : env'.strings = env.strings) : EncodesTree env' t := by
  obtain ⟨l, rest, hencodes, hstructs⟩ := h
  obtain ⟨more, hmore⟩ := hbegin
  refine ⟨l, rest ++ more, hencodes.of_strings hmem hstrings, ?_⟩
  rw [← hmore, hstructs, List.append_assoc, List.append_assoc]

/-- **Two readings of one block** are in step, until a token is left.
Source: none: infrastructure
Kind: L -/
theorem Reads.behind (h : Reads env off ts off₁) (env' : DtEnv) (hstructs : env'.structs = env.structs)
    {tok : FdtToken} {rest : List FdtToken} (h' : Reads env' off (ts ++ tok :: rest) off') :
    Reads env' off₁ (tok :: rest) off' := by
  induction h with
  | nil off => exact h'
  | @nop off off₂ off₁ ts hnop _ ih =>
      generalize hall : ts ++ tok :: rest = all at h'
      cases h' with
      | nil => exact absurd hall (List.append_ne_nil_of_right_ne_nil _ (List.cons_ne_nil _ _))
      | nop hnop' hreads =>
          rw [hstructs, hnop] at hnop'
          cases hnop'
          rw [← hall] at hreads
          exact ih hreads
      | tok hat _ =>
          obtain ⟨u, hlex, hlexed⟩ := hat.lexed
          rw [hstructs, hnop] at hlex
          cases hlex
          cases hlexed
  | @tok off off₂ off₁ u us hat _ ih =>
      generalize hall : u :: us ++ tok :: rest = all at h'
      obtain ⟨v, hlex, hlexed⟩ := hat.lexed
      cases h' with
      | nil => cases hall
      | nop hnop' _ =>
          rw [hstructs, hlex] at hnop'
          cases hnop'
          cases hlexed
      | tok hat' hreads =>
          obtain ⟨v', hlex', -⟩ := hat'.lexed
          rw [hstructs, hlex] at hlex'
          cases hlex'
          obtain ⟨-, rfl⟩ := List.cons.inj hall
          exact ih hreads

/-- **The property at an offset**, among the tokens that are ahead.
Source: none: infrastructure
Kind: L -/
theorem Reads.prop_of_token (h : Reads env off ts off') (hend : dtLex env.structs off' = .ending .fdtEnd)
    {nameOffset : BitVec 32} (hread : readU32 env.structs off = some fdtProp)
    (hname : readU32 env.structs (off + 8) = some nameOffset) :
    ∃ p rest, ts = .prop p :: rest ∧
      CStringAt env.mem (env.strings + nameOffset.setWidth 64) p.name.val := by
  have hno : ∀ {t : FdtToken} {tok : DtToken} {off₁ : ℕ}, dtLex env.structs off = .tok tok off₁ →
      t.Lexed env tok → ∃ p, t = .prop p ∧
        CStringAt env.mem (env.strings + nameOffset.setWidth 64) p.name.val := by
    intro t tok off₁ hlex hlexed
    rcases dtLex_tok_cases hlex with ⟨hread', -⟩ | ⟨hread', -⟩ | ⟨-, propLen, nameOffset', -, hname', rfl, -⟩ |
      ⟨hread', -⟩
    · rw [hread] at hread'
      exact absurd (Option.some.inj hread') (by decide)
    · rw [hread] at hread'
      exact absurd (Option.some.inj hread') (by decide)
    · rw [Nat.add_assoc, hname] at hname'
      cases hname'
      cases hlexed with
      | prop _ hstring => exact ⟨_, rfl, hstring⟩
    · rw [hread] at hread'
      exact absurd (Option.some.inj hread') (by decide)
  cases h with
  | nil =>
      unfold dtLex at hend
      rw [hread] at hend
      dsimp only at hend
      rw [if_neg (by decide), if_neg (by decide), if_pos rfl] at hend
      split at hend <;> cases hend
  | nop hnop _ =>
      rcases dtLex_tok_cases hnop with ⟨-, name, ht, -⟩ | ⟨-, ht, -⟩ | ⟨-, propLen, nameOffset', -, -, ht, -⟩ |
        ⟨hread', -⟩
      · cases ht
      · cases ht
      · cases ht
      · rw [hread] at hread'
        exact absurd (Option.some.inj hread') (by decide)
  | tok hat _ =>
      obtain ⟨tok, hlex, hlexed⟩ := hat.lexed
      obtain ⟨p, rfl, hstring⟩ := hno hlex hlexed
      exact ⟨p, _, rfl, hstring⟩

end structs

/-! ## The names -/

/-- The memory `m` with `c` outside of the `n` bytes at `base`.
Source: none: infrastructure
Kind: D -/
def maskOutside (m : Mem) (base : Addr) (n : ℕ) (c : BitVec 8) : Mem := fun x =>
  if (x - base).toNat < n then m x else c

section names

variable {blob : Mem} {base p : Addr} {n : ℕ} {t : FdtTree} {machine : DtMachine} {loads : Addr → Bool}
  {bump : BumpAllocator} {s : DtState}

/-- Source: none: infrastructure. Kind: L -/
theorem sameBytes_maskOutside (hn : n ≤ 2 ^ 64) (c : BitVec 8) :
    SameBytes base n blob (maskOutside blob base n c) := by
  intro i hi
  unfold maskOutside
  rw [if_pos]
  rw [BitVec.add_comm, BitVec.add_sub_cancel, BitVec.toNat_ofNat, Nat.mod_eq_of_lt (by omega)]
  exact hi

/-- **A string that does not depend on what is outside** is inside.
Source: none: infrastructure
Kind: L -/
theorem inside_of_masked {l : List (BitVec 8)} (h : ∀ c, CStringAt (maskOutside blob base n c) p l) {i : ℕ}
    (hi : i < l.length + 1) : (p + BitVec.ofNat 64 i - base).toNat < n := by
  by_contra hout
  obtain ⟨b, hb⟩ : ∃ b, (l ++ [0])[i]? = some b := by
    refine ⟨_, List.getElem?_eq_getElem ?_⟩
    rw [List.length_append]
    exact hi
  have hbyte : ∀ c, c = b := by
    intro c
    have hc := h c i b hb
    unfold maskOutside at hc
    rwa [if_neg hout] at hc
  exact absurd ((hbyte 0).trans (hbyte 1).symm) (by decide)

/-- It is no longer than the range.
Source: none: infrastructure
Kind: L -/
theorem length_lt_of_masked {l : List (BitVec 8)} (h : ∀ c, CStringAt (maskOutside blob base n c) p l)
    (hn : n < 2 ^ 64) : l.length < 2 ^ 64 := by
  by_contra hlong
  have hin := inside_of_masked h (i := (base + BitVec.ofNat 64 n - p).toNat) (by
    have := (base + BitVec.ofNat 64 n - p).isLt
    omega)
  rw [BitVec.ofNat_toNat, BitVec.setWidth_eq, BitVec.add_comm p, BitVec.sub_add_cancel, BitVec.add_comm,
    BitVec.add_sub_cancel, BitVec.toNat_ofNat, Nat.mod_eq_of_lt hn] at hin
  exact lt_irrefl n hin

/-- The environment of the loop sees the block.
Source: `device_tree.c` `dt_initialize`
Kind: L -/
theorem dtbEnv_structs_begin (machine : DtMachine) (hle : base.toNat +
      (dtbHeaderField blob base 4).toNat ≤ 2 ^ 38)
    (hloads : loadsBytes loads base (dtbHeaderField blob base 4).toNat = true) {len : ℕ}
    (hlen : (dtbHeaderField blob base 8).toNat + len ≤ (dtbHeaderField blob base 4).toNat) :
    bytes blob (base + dtbHeaderField blob base 8) len <+: (dtbEnv machine loads blob base).structs := by
  refine readableBytes_begin (loadsBytes_sub hloads _ hlen) ?_
  unfold canonicalPages
  omega

/-- **The blob encodes the tree for the loop**, and so it does with any bytes behind it.
Source: `device_tree.c` `dt_initialize`
Kind: L -/
theorem DtbWellFormed.encodesTree (h : DtbWellFormed blob base t) (hle : base.toNat +
      (dtbHeaderField blob base 4).toNat ≤ 2 ^ 38)
    (hloads : loadsBytes loads base (dtbHeaderField blob base 4).toNat = true) {m : Mem}
    (hm : SameBytes base (dtbHeaderField blob base 4).toNat blob m) :
    EncodesTree { dtbEnv machine loads blob base with mem := m } t := by
  obtain ⟨len, hlen, hblock⟩ := h.block
  refine (hblock m hm).extend ?_ rfl rfl
  have hsame : bytes m (base + dtbHeaderField blob base 8) len =
      bytes blob (base + dtbHeaderField blob base 8) len := by
    refine List.map_congr_left fun i hi => ?_
    have hbyte := hm ((dtbHeaderField blob base 8).toNat + i) (by
      have := List.mem_range.mp hi
      omega)
    rwa [BitVec.ofNat_add, BitVec.ofNat_toNat, BitVec.setWidth_eq, ← BitVec.add_assoc] at hbyte
  show bytes m _ len <+: _
  rw [hsame]
  exact dtbEnv_structs_begin machine hle hloads hlen

/-- **Every name that the loop copies is in the blob**, so that it can be loaded.
Source: `device_tree.c` `dtb_parse_property`
Kind: P -/
theorem DtbWellFormed.names_load (h : DtbWellFormed blob base t) (hle : base.toNat +
      (dtbHeaderField blob base 4).toNat ≤ 2 ^ 38)
    (hloads : loadsBytes loads base (dtbHeaderField blob base 4).toNat = true) (hbump : BumpOk bump)
    (hsize : bump.size.toNat + (dtbEnv machine loads blob base).structs.length < 2 ^ 64)
    (hroom : t.need ≤ bump.room) (hs : DtReach (dtbEnv machine loads blob base) (dtbInit bump) s) :
    dtbNameLoads loads (dtbEnv machine loads blob base) s.off = true := by
  have hencodes : ∀ {m : Mem}, SameBytes base (dtbHeaderField blob base 4).toNat blob m →
      EncodesTree { dtbEnv machine loads blob base with mem := m } t := h.encodesTree hle hloads
  have hblock : EncodesTree (dtbEnv machine loads blob base) t := hencodes fun _ _ => rfl
  unfold dtbNameLoads
  cases hread : readU32 (dtbEnv machine loads blob base).structs s.off with
  | none => rfl
  | some token =>
      cases hname : readU32 (dtbEnv machine loads blob base).structs (s.off + 8) with
      | none => rfl
      | some nameOffset =>
          dsimp only
          by_cases htoken : token = fdtProp
          swap
          · rw [decide_eq_true htoken, Bool.true_or]
          subst htoken
          -- the property that is ahead
          obtain ⟨ts, rest, live, stack, htokens, hrec⟩ := (dtRecording_init hblock hbump hsize).reach
            (fun s s' ts rest live stack hs _ _ _ tok off' hat =>
              Or.inl (fits_of_room hblock hbump hsize hroom hs hat)) hs
          obtain ⟨offEnd, hahead, hend⟩ := hrec.ahead
          obtain ⟨p, rest', rfl, hstring⟩ := hahead.prop_of_token hend hread hname
          have hmasked : ∀ c, CStringAt (maskOutside blob base (dtbHeaderField blob base 4).toNat c)
              (base + dtbHeaderField blob base 12 + nameOffset.setWidth 64) p.name.val := by
            intro c
            obtain ⟨l, more, hencode, hstructs⟩ := hencodes (sameBytes_maskOutside (by omega) c)
            have hdrop := (List.drop_zero (l := (dtbEnv machine loads blob base).structs)).trans hstructs
            obtain ⟨hreads, hrest⟩ := hencode.reads hdrop
            rw [← htokens] at hreads
            have hbehind := hrec.reads.behind { dtbEnv machine loads blob base with
                mem := maskOutside blob base (dtbHeaderField blob base 4).toNat c } rfl hreads
            obtain ⟨p', rest'', heq, hstring'⟩ := hbehind.prop_of_token (dtLex_fdtEnd hrest) hread hname
            cases heq
            exact hstring'
          rw [Bool.or_eq_true]
          refine Or.inr ?_
          have hlength := length_lt_of_masked hmasked (by omega)
          have hstrlen := strlen_of_cstringAt hstring p.name.property hlength
          unfold loadsCString
          rw [hstrlen, loadsBytes_iff]
          intro i hi
          have hin := inside_of_masked hmasked hi
          have hbyte := loadsBytes_iff.mp hloads _ hin
          rwa [BitVec.ofNat_toNat, BitVec.setWidth_eq, BitVec.add_comm base, BitVec.sub_add_cancel] at hbyte

end names

/-! ## The reading -/

/-- **The pages that reading a tree takes**: those of the bump allocator and of the arrays.
Source: `device_tree.c` `dt_initialize`, `array.h` `ARRAY_PUSH`
Kind: D -/
def FdtTree.pages (t : FdtTree) : ℕ :=
  2 + arrayPages sizeofDtNode (t.tokens.filterMap FdtToken.nodeName).length +
    arrayPages sizeofDtProperty (t.tokens.filterMap FdtToken.property).length

section reading

variable {env : DtEnv} {bump : BumpAllocator} {s f : DtState} {t : FdtTree} {root : ArrayPtr} {stop : DtStop}

/-- The loop stops in its last round.
Source: `device_tree.c` `dt_initialize`
Kind: L -/
theorem dtbStep_of_dtbLoop {n : ℕ} (h : dtbLoop env n s = (stop, f)) (hstop : stop ≠ .endless) :
    dtbStep env f = .error stop := by
  induction n generalizing s with
  | zero =>
      cases h
      exact absurd rfl hstop
  | succ n ih =>
      unfold dtbLoop at h
      cases hstep : dtbStep env s with
      | error stop' =>
          rw [hstep] at h
          cases h
          exact hstep
      | ok s' =>
          rw [hstep] at h
          exact ih h

/-- The loop of a parsing that comes to the rewrite pass.
Source: `device_tree.c` `dt_initialize`
Kind: L -/
theorem dtbLoop_of_dtbParse (h : dtbParse env bump = .rewrite s root) :
    dtbLoop env (env.structs.length + 1) (dtbInit bump) = (.rewritePass, s) ∧ s.nodes.size ≠ 0 ∧
      root = (s.nodes.data.getD 0, 0) := by
  unfold dtbParse at h
  split at h
  · rename_i s' hloop
    split_ifs at h with hzero
    cases h
    exact ⟨hloop, hzero, rfl⟩
  · cases h

/-- **The pages of the tree**: in the end there is an element for each node and for each property.
Source: `device_tree.c` `dtb_parse_node`, `dtb_parse_property`
Kind: L -/
theorem DtbGiven.pagesNeeded_eq (h : DtbGiven env bump t) (hs : DtReach env (dtbInit bump) s)
    (hread : readU32 env.structs s.off = some fdtEnd) : pagesNeeded s = t.pages := by
  have hroom : t.need ≤ bump.room := (Nat.le_add_right _ _).trans h.room
  obtain ⟨ts, rest, live, stack, htokens, hrec⟩ := (dtRecording_init h.block h.ok h.size).reach
    (fun s s' ts rest live stack hs _ _ _ tok off' hat =>
      Or.inl (fits_of_room h.block h.ok h.size hroom hs hat)) hs
  have hlex : dtLex env.structs s.off = .ending .fdtEnd := by
    unfold dtLex
    rw [hread]
    rfl
  -- no token is ahead
  obtain rfl : rest = [] := by
    obtain ⟨offEnd, hahead, -⟩ := hrec.ahead
    cases hahead with
    | nil => rfl
    | nop hnop _ => cases hlex.symm.trans hnop
    | tok hat _ =>
        obtain ⟨tok, htok, -⟩ := hat.lexed
        cases hlex.symm.trans htok
  rw [List.append_nil] at htokens
  subst htokens
  have hnodes := hrec.nodes.length_eq
  have hproperties := hrec.properties.length_eq
  rw [List.length_map] at hnodes
  unfold KArray.contents at hnodes hproperties
  rw [List.length_map, List.length_range] at hnodes hproperties
  unfold pagesNeeded FdtTree.pages
  rw [hnodes, hproperties]

/-- What is reached before the loop stops is on its way.
Source: `device_tree.c` `dt_initialize`
Kind: L -/
theorem dtReach_of_stopped {s₀ : DtState} (hs : DtReach env s₀ s) (hf : DtReach env s₀ f)
    (hstop : dtbStep env f = .error stop) : DtReach env s f := by
  induction hs using Relation.ReflTransGen.head_induction_on with
  | refl => exact hf
  | head hstep _ ih =>
      refine ih ?_
      cases hf using Relation.ReflTransGen.head_induction_on with
      | refl =>
          change dtbStep env _ = .ok _ at hstep
          rw [hstop] at hstep
          cases hstep
      | head hstep' hf' _ =>
          change dtbStep env _ = .ok _ at hstep hstep'
          rw [hstep] at hstep'
          cases hstep'
          exact hf'

end reading

section blocks

variable {pmmAlloc : PmmAlloc σ} {machine : DtMachine} {root : Addr} {blob : Mem} {base : Addr}
  {w : World σ} {t : FdtTree}

/-- The fields of the header and the words of the reservation block are inside of the blob.
Source: `device_tree.c` `dt_initialize`
Kind: L -/
theorem DtbWellFormed.fields_load (h : DtbWellFormed blob base t) {loads : Addr → Bool}
    (hloads : loadsBytes loads base (dtbHeaderField blob base 4).toNat = true) :
    dtbFieldsLoad loads blob base = true := by
  have hheader := h.header
  have hrsvmap := h.rsvmap
  have hsize : ∀ k : BitVec 64, k.toNat ≤ 16 → k.toNat + 4 ≤ (dtbHeaderField blob base 4).toNat :=
    fun k hk => by omega
  have hnext : loadsBytes loads (base + dtbHeaderField blob base 16 + 8) 8 = true := by
    rw [BitVec.add_assoc]
    have h8 : (dtbHeaderField blob base 16 + 8).toNat = (dtbHeaderField blob base 16).toNat + 8 := by
      have hlt := (dtbHeaderField blob base 4).isLt
      rw [BitVec.toNat_add, show (8 : BitVec 64).toNat = 8 from rfl, Nat.mod_eq_of_lt (by omega)]
    exact loadsBytes_sub hloads _ (by rw [h8]; omega)
  unfold dtbFieldsLoad
  dsimp only
  rw [loadsBytes_sub hloads 16 (hsize 16 (by decide)), loadsBytes_sub hloads 8 (hsize 8 (by decide)),
    loadsBytes_sub hloads 12 (hsize 12 (by decide)), loadsBytes_sub hloads _ (by omega : _ + 8 ≤ _), hnext,
    Bool.or_true]
  rfl

/-- **The loop and the pass of a tree that is given**, with assertions.
Source: `device_tree.c` `dt_initialize`
Kind: L -/
theorem DtbGiven.ends {env : DtEnv} {bump : BumpAllocator} (h : DtbGiven env bump t)
    (hassert : machine.assertions = true) :
    ∃ s, dtbLoop env (env.structs.length + 1) (dtbInit bump) = (.rewritePass, s) ∧
      DtReach env (dtbInit bump) s ∧ pagesNeeded s = t.pages ∧
      dtbRewritePass machine s = .ofRewrite (t.forest.decode []) := by
  obtain ⟨s, root, f, hparse, -, -, hends⟩ := h.passes
  obtain ⟨s', root', -, -, hparse', hreach, hread, -⟩ :=
    dtbParse_ready env bump t h.block h.grants h.ok ((Nat.le_add_right _ _).trans h.room)
  rw [hparse] at hparse'
  cases hparse'
  obtain ⟨hloop, hnodes, rfl⟩ := dtbLoop_of_dtbParse hparse
  refine ⟨s, hloop, hreach, h.pagesNeeded_eq hreach hread, ?_⟩
  unfold dtbRewritePass
  rw [if_neg hnodes, hassert]
  cases hdecode : t.forest.decode [] with
  | ok d =>
      obtain ⟨s', hrewrite, -⟩ := hends.of_spec_ok hdecode
      rw [hrewrite]
      rfl
  | error stop =>
      rw [hends.of_spec_error hdecode]
      cases stop <;> rfl

/-- A well-formed blob is given to the loop.
Source: `device_tree.c` `dt_initialize`
Kind: L -/
theorem DtbWellFormed.given (h : DtbWellFormed blob base t) (machine : DtMachine)
    (hle : base.toNat + (dtbHeaderField blob base 4).toNat ≤ 2 ^ 38) {loads : Addr → Bool}
    (hloads : loadsBytes loads base (dtbHeaderField blob base 4).toNat = true) {a : Addr} {m : Mem}
    (hpos : 0 < a.toNat) (hupper : a.toNat + 8192 ≤ 2 ^ 63) :
    DtbGiven (dtbEnv machine loads blob base) ⟨a, 2 * basePageSize, 0, m⟩ t := by
  have hlength : (dtbEnv machine loads blob base).structs.length ≤ 2 ^ 39 :=
    length_readableBytes_le loads blob canonicalPages _
  refine ⟨h.encodesTree hle hloads fun _ _ => rfl, fun _ => rfl, ⟨hpos, ?_, Nat.zero_le _⟩, ?_, ?_,
    h.shaped, h.room⟩
  · exact hupper.trans (by norm_num)
  · show 8192 + _ < 2 ^ 64
    omega
  · show 8192 ≤ 2 ^ 63
    norm_num

/-- The state in which the loop starts, with the buffer at hand.
Source: `device_tree.c` `dt_initialize`
Kind: L -/
theorem dtbStart_state (hpos : 0 < (pmmAlloc w.pmm w.mem (2 * basePageSize)).ret.toNat) :
    (dtbStart pmmAlloc w).state = dtbInit ⟨(pmmAlloc w.pmm w.mem (2 * basePageSize)).ret,
      2 * basePageSize, 0, (pmmAlloc w.pmm w.mem (2 * basePageSize)).mem⟩ := by
  show dtbInit (bumpInit _ _ _).1 = _
  unfold bumpInit
  rw [if_neg]
  rintro (hzero | hzero)
  · rw [hzero] at hpos
    exact lt_irrefl 0 hpos
  · exact absurd hzero (by decide)

/-- **The blocks of a well-formed blob**, with the buffer granted: their calls ask for the pages of the
tree, and the end is the meaning of the tree; or a call for an array fails, and they have not asked for more.
Source: `device_tree.c` `dt_initialize`
Kind: P -/
theorem DtbWellFormed.blocks (h : DtbWellFormed blob base t) (hassert : machine.assertions = true)
    (hle : base.toNat + (dtbHeaderField blob base 4).toNat ≤ 2 ^ 38)
    (hloads : loadsBytes (sv39Loads (dtbStart pmmAlloc w).world.mem root) base
      (dtbHeaderField blob base 4).toNat = true)
    (hok : errIsFail (pmmAlloc w.pmm w.mem (2 * basePageSize)).err = false)
    (hpos : 0 < (pmmAlloc w.pmm w.mem (2 * basePageSize)).ret.toNat)
    (hupper : (pmmAlloc w.pmm w.mem (2 * basePageSize)).ret.toNat + 8192 ≤ 2 ^ 63) :
    ((∀ c ∈ (dtbBlocks machine pmmAlloc root blob base w).1.calls,
        errIsFail (pmmAlloc c.1.pmm c.1.mem c.2).err = false) ∧
      (dtbBlocks machine pmmAlloc root blob base w).2 = .ofRewrite (t.forest.decode []) ∧
      pagesAsked (dtbBlocks machine pmmAlloc root blob base w).1.calls = t.pages) ∨
    ((dtbBlocks machine pmmAlloc root blob base w).2 = .stuck ∧
      (∃ c ∈ (dtbBlocks machine pmmAlloc root blob base w).1.calls,
        errIsFail (pmmAlloc c.1.pmm c.1.mem c.2).err = true) ∧
      pagesAsked (dtbBlocks machine pmmAlloc root blob base w).1.calls ≤ t.pages) := by
  generalize hloadsOf : sv39Loads (dtbStart pmmAlloc w).world.mem root = loads at hloads
  have hstart := dtbStart_state hpos
  have hgiven := h.given machine hle hloads hpos hupper
    (m := (pmmAlloc w.pmm w.mem (2 * basePageSize)).mem)
  obtain ⟨s, hloop, hreach, hpages, hpass⟩ := hgiven.ends hassert
  have hnames : ∀ s, DtReach (dtbEnv machine loads blob base) (dtbStart pmmAlloc w).state s →
      dtbNameLoads loads (dtbEnv machine loads blob base) s.off = true := by
    rw [hstart]
    exact fun s hs => h.names_load hle hloads hgiven.ok hgiven.size
      ((Nat.le_add_right _ _).trans h.room) hs
  obtain ⟨s', hreach', hasks, hlast⟩ := dtbStructures_asks machine pmmAlloc root blob base w
  rw [hloadsOf, hstart] at hreach'
  -- the fields can be loaded, and the reservation block has no entry
  have hfields : dtbFieldsLoad (sv39Loads (dtbStart pmmAlloc w).world.mem root) blob base = true := by
    rw [hloadsOf]
    exact h.fields_load hloads
  have hreservations : (reservationLoop blob (base + dtbHeaderField blob base 16) (fun _ => true) 1 0
      reservationInit).2 = .finished := by
    rw [reservationLoop_of_zero fun hne => h.reservations.elim hne.1 hne.2]
  have hrun : dtbStructures machine pmmAlloc root blob base (dtbStart pmmAlloc w) =
      dtbLoopOn pmmAlloc loads (dtbEnv machine loads blob base)
        ((dtbEnv machine loads blob base).structs.length + 1) (dtbStart pmmAlloc w) := by
    unfold dtbStructures
    rw [hloadsOf]
  by_cases hall : ∀ c ∈ (dtbStructures machine pmmAlloc root blob base (dtbStart pmmAlloc w)).2.calls,
      errIsFail (pmmAlloc c.1.pmm c.1.mem c.2).err = false
  · have heq : (dtbStructures machine pmmAlloc root blob base (dtbStart pmmAlloc w)).1 = .rewritePass ∧
        (dtbStructures machine pmmAlloc root blob base (dtbStart pmmAlloc w)).2.state = s := by
      rw [hrun] at hall ⊢
      have heq := dtbLoopOn_eq hnames hall
      rwa [hstart, hloop] at heq
    rcases hend : dtbStructures machine pmmAlloc root blob base (dtbStart pmmAlloc w) with ⟨stop, run⟩
    rw [hend] at hall heq hasks hlast
    obtain ⟨rfl, rfl⟩ := heq
    rw [dtbBlocks_eq hfields hreservations hend, if_pos rfl]
    obtain rfl := hlast DtStop.noConfusion
    exact Or.inl ⟨hall, hpass, hasks.pages.trans hpages⟩
  · have hpanic : (dtbStructures machine pmmAlloc root blob base (dtbStart pmmAlloc w)).1 =
        .panic .arrayAllocation := by
      rw [hrun] at hall ⊢
      have hfirst : ∀ c ∈ (dtbStart pmmAlloc w).calls, errIsFail (pmmAlloc c.1.pmm c.1.mem c.2).err = false :=
        List.forall_mem_singleton.mpr hok
      exact (dtbLoopOn_granted hfirst).resolve_left hall
    have hle : pagesNeeded s' ≤ t.pages := by
      rw [← hpages]
      exact pagesNeeded_le (fun _ => rfl)
        (dtReach_of_stopped hreach' hreach (dtbStep_of_dtbLoop hloop DtStop.noConfusion))
    rcases hend : dtbStructures machine pmmAlloc root blob base (dtbStart pmmAlloc w) with ⟨stop, run⟩
    rw [hend] at hall hpanic hasks
    obtain rfl := hpanic
    rw [dtbBlocks_eq hfields hreservations hend, if_neg DtStop.noConfusion]
    push Not at hall
    obtain ⟨c, hc, hfail⟩ := hall
    exact Or.inr ⟨rfl, ⟨c, hc, Bool.eq_true_of_not_eq_false hfail⟩, hasks.pages.trans_le hle⟩

end blocks

/-! ## A blob for every tree -/

section blob

variable {m : Mem} {p base : Addr} {t : FdtTree}

end blob

end Octiron.Kernel
