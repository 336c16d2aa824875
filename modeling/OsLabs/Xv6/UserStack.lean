import OsLabs.Xv6.Memory
import OsLabs.Xv6.Resources

/-!
# OsLabs.Xv6.UserStack

What a program finds when it is started: the argument strings, the words below them, and
the stack pointer below these (`Startup`). The strings are pushed one after the other onto
one page, below which a page is made inaccessible. So a string that does not fit is
noticed, however long it is, because its copy runs into that page (`copied_fits`).
-/

namespace OsLabs.Xv6

open Effects

variable {σ I P : Type}

/-! ### What the program finds -/

/-- `argv`, from below the stack pointer, -/
def argvOf (mem : ByteMem) (esp : Nat) : Nat := readLE mem (esp + 8) 4

/-- and `argv[j]`. -/
def argOf (mem : ByteMem) (esp j : Nat) : Nat := readLE mem (argvOf mem esp + 4 * j) 4

/-- The arguments of `main(argc, argv)` on the stack that ends at `top`. -/
structure Startup (mem : ByteMem) (esp top : Nat) (argv : List CStr) : Prop where
  aligned : 4 ∣ esp
  /-- The return address is none. -/
  returnPc : readLE mem esp 4 = 0xffffffff
  argc : readLE mem (esp + 4) 4 = argv.length
  /-- The array lies right above the arguments, -/
  array : argvOf mem esp = esp + 12
  null : argOf mem esp argv.length = 0
  string : ∀ j s, argv[j]? = some s → BytesAt mem (argOf mem esp j) s.bytes
  /-- the strings above the array, -/
  above : ∀ j s, argv[j]? = some s → esp + 12 + 4 * (argv.length + 1) ≤ argOf mem esp j ∧
    argOf mem esp j + s.bytes.length ≤ top
  /-- and each of them below those before it. -/
  apart : ∀ i j s, i < j → argv[j]? = some s →
    argOf mem esp j + s.bytes.length ≤ argOf mem esp i

/-- The bytes that a string takes on the stack. -/
def CStr.room (s : CStr) : Nat := (s.bytes.length + 3) / 4 * 4

/-- The bytes that the arguments take on the stack. -/
def stackBytes (argv : List CStr) : Nat := (argv.map CStr.room).sum + 4 * (4 + argv.length)

/-- There are not too many arguments, and there is a page for them. -/
def Fits (h : Headers) (argv : List CStr) : Prop :=
  argv.length ≤ h.maxarg ∧ stackBytes argv ≤ h.pgsize.toNat

/-! ### A copy onto the stack -/

theorem CStr.bytes_length (s : CStr) : s.bytes.length = s.chars.length + 1 := by
  simp [CStr.bytes]

theorem CStr.bytes_lt (s : CStr) : s.bytes.length < 2 ^ 32 := by
  rw [s.bytes_length]
  exact s.fits

section
variable {h : Headers} {v : View σ P} {k : Kernel σ I P} {pgdir : P} {s : σ}

/-- Of the two pages below `sz` only the upper one is accessible. -/
structure Guarded (h : Headers) (v : View σ P) (pgdir : P) (sz : Nat) (s : σ) : Prop where
  page : h.pgsize.toNat ∣ sz
  low : 2 * h.pgsize.toNat ≤ sz
  high : sz < 2 ^ 32
  guard : ∀ a, sz - 2 * h.pgsize.toNat ≤ a → a < sz - h.pgsize.toNat → ¬ v.user s pgdir a
  stack : ∀ a, sz - h.pgsize.toNat ≤ a → a < sz → v.user s pgdir a

/-- What was copied to end at `top`, on the stack page or right below it, fits on that
page. If it went further down it would have written to the inaccessible page. -/
theorem copied_fits {sz top n : Nat} {va : Uint} (hg : Guarded h v pgdir sz s)
    (hlow : sz - 2 * h.pgsize.toNat < top) (hhigh : top ≤ sz) (hn : 0 < n) (hlt : n < 2 ^ 32)
    (hva : addr va n = top) (huser : ∀ i, i < n → v.user s pgdir (addr va i)) :
    sz - h.pgsize.toNat + n ≤ top := by
  by_contra hbig
  have hsz := hg.high
  have h4 := h.four_le
  have h2 := hg.low
  -- an address of the inaccessible page that is below `top`
  obtain ⟨a, ha, hguard, hnear⟩ : ∃ a, a < top ∧ (sz - 2 * h.pgsize.toNat ≤ a ∧
      a < sz - h.pgsize.toNat) ∧ top - a ≤ n :=
    ⟨min top (sz - h.pgsize.toNat) - 1, by omega, by omega, by omega⟩
  have hat : addr va (n - (top - a)) = a := by
    rw [addr] at hva ⊢
    have := va.isLt
    omega
  exact hg.guard a hguard.1 hguard.2 (hat ▸ huser _ (by omega))

/-- A copy to the stack page succeeds. -/
theorem Guarded.copies (D : Documented k h v) {sz : Nat} {va : Uint} {p : List UInt8}
    (hg : Guarded h v pgdir sz s) (hlow : sz - h.pgsize.toNat ≤ va.toNat)
    (hhigh : va.toNat + p.length ≤ sz) : ¬ (k (.copyout pgdir va p) s).1 < 0 := by
  have hsz := hg.high
  refine (D.copyout_iff s pgdir va p (by omega)).mpr fun i hi => ?_
  rw [addr, Nat.mod_eq_of_lt (by omega)]
  exact hg.stack _ (by omega) (by omega)

theorem Guarded.copyout (D : Documented k h v) {sz : Nat} {va : Uint} {p : List UInt8}
    (hg : Guarded h v pgdir sz s) : Guarded h v pgdir sz (k (.copyout pgdir va p) s).2 where
  page := hg.page
  low := hg.low
  high := hg.high
  guard a ha ha' := by
    rw [D.copyout_user]
    exact hg.guard a ha ha'
  stack a ha ha' := by
    rw [D.copyout_user]
    exact hg.stack a ha ha'

theorem toNat_mask (x : Uint) : (x &&& ~~~3).toNat = x.toNat - x.toNat % 4 := by
  rw [RoundUp.toNat_and_not]
  show x.toNat - (x.toNat &&& 2 ^ 2 - 1) = _
  rw [Nat.and_two_pow_sub_one_eq_mod]

/-- Where a string is put: 4 divides the address, and the string ends at `sp` or at most 3
bytes below it. -/
theorem below_spec (sp : Uint) (t : CStr) (h4 : 4 ∣ sp.toNat) (hpos : 4 ≤ sp.toNat) :
    4 ∣ (below sp t).toNat ∧ ∃ d, d < 4 ∧ d + t.bytes.length = t.room ∧
      addr (below sp t) t.bytes.length = sp.toNat - d := by
  have hlen := t.bytes_length
  have hfits := t.fits
  have hn : (BitVec.ofNat 32 (t.chars.length + 1)).toNat = t.bytes.length := by
    rw [hlen, BitVec.toNat_ofNat, Nat.mod_eq_of_lt hfits]
  have hsp := sp.isLt
  have hval : (below sp t).toNat = (2 ^ 32 - t.bytes.length + sp.toNat) % 2 ^ 32 -
      (2 ^ 32 - t.bytes.length + sp.toNat) % 2 ^ 32 % 4 := by
    rw [below, toNat_mask, BitVec.toNat_sub, hn]
  rw [hval, CStr.room, addr, hval]
  refine ⟨by omega, (2 ^ 32 - t.bytes.length + sp.toNat) % 2 ^ 32 % 4, by omega, by omega,
    by omega⟩

/-! ### The strings -/

/-- The strings that were pushed, with their addresses, the last of them at `sp`. -/
structure Pushed (mem : ByteMem) (sp top : Nat) (blocks : List (Uint × CStr)) : Prop where
  string : ∀ b ∈ blocks, BytesAt mem b.1.toNat b.2.bytes
  inside : ∀ b ∈ blocks, sp ≤ b.1.toNat ∧ b.1.toNat + b.2.bytes.length ≤ top
  apart : blocks.Pairwise fun b c => c.1.toNat + c.2.bytes.length ≤ b.1.toNat
  room : sp + (blocks.map fun b => b.2.room).sum = top

/-- Another string, below them. -/
theorem Pushed.snoc {mem mem' : ByteMem} {sp top d : Nat} {blocks : List (Uint × CStr)}
    {a : Uint} {t : CStr} (hp : Pushed mem sp top blocks) (hd : d + t.bytes.length = t.room)
    (ha : a.toNat + t.bytes.length + d = sp) (hbytes : BytesAt mem' a.toNat t.bytes)
    (hframe : ∀ x, sp ≤ x → mem' x = mem x) :
    Pushed mem' a.toNat top (blocks ++ [(a, t)]) := by
  constructor
  case string =>
    intro b hb
    rcases List.mem_append.mp hb with hb | hb
    · exact (hp.string b hb).congr fun x hx _ =>
        hframe x (Nat.le_trans (hp.inside b hb).1 hx)
    · obtain rfl := List.mem_singleton.mp hb
      exact hbytes
  case inside =>
    intro b hb
    rcases List.mem_append.mp hb with hb | hb
    · have := hp.inside b hb
      exact ⟨by omega, this.2⟩
    · obtain rfl := List.mem_singleton.mp hb
      have := hp.room
      exact ⟨Nat.le_refl _, by show a.toNat + t.bytes.length ≤ top; omega⟩
  case apart =>
    refine List.pairwise_append.mpr ⟨hp.apart, List.pairwise_singleton _ _, fun b hb c hc => ?_⟩
    obtain rfl := List.mem_singleton.mp hc
    have := (hp.inside b hb).1
    show a.toNat + t.bytes.length ≤ b.1.toNat
    omega
  case room =>
    have := hp.room
    rw [List.map_append, List.sum_append]
    simp only [List.map_cons, List.map_nil, List.sum_cons, List.sum_nil]
    omega

/-- The state while the strings are pushed, on the stack page below `sz`. -/
structure Pushing (h : Headers) (v : View σ P) (pgdir : P) (sz : Nat) (sp : Uint)
    (blocks : List (Uint × CStr)) (s : σ) : Prop where
  guarded : Guarded h v pgdir sz s
  aligned : 4 ∣ sp.toNat
  onPage : sz - h.pgsize.toNat ≤ sp.toNat
  pushed : Pushed (v.byte s pgdir) sp.toNat sz blocks

/-- A copy that succeeded and that ends near `sp`: it is on the page, and what was there at
`sp` and above it is there still. -/
theorem Pushing.copied (D : Documented k h v) {sz d : Nat} {sp va : Uint}
    {blocks : List (Uint × CStr)} {p : List UInt8} (hp : Pushing h v pgdir sz sp blocks s)
    (hd : d < 4) (hpos : 0 < p.length) (hlt : p.length < 2 ^ 32)
    (hva : addr va p.length = sp.toNat - d)
    (hok : ¬ (k (.copyout pgdir va p) s).1 < 0) :
    sz - h.pgsize.toNat ≤ va.toNat ∧ va.toNat + p.length + d = sp.toNat ∧
      BytesAt (v.byte (k (.copyout pgdir va p) s).2 pgdir) va.toNat p ∧
      (∀ x, sp.toNat ≤ x →
        v.byte (k (.copyout pgdir va p) s).2 pgdir x = v.byte s pgdir x) ∧
      Guarded h v pgdir sz (k (.copyout pgdir va p) s).2 := by
  have hg := hp.guarded
  have h4 := h.four_le
  have hle : sp.toNat ≤ sz := hp.pushed.room ▸ Nat.le_add_right ..
  have hon := hp.onPage
  have hlow := hg.low
  have hsp := sp.isLt
  have hfits : sz - h.pgsize.toNat + p.length ≤ sp.toNat - d :=
    copied_fits hg (by omega) (by omega) hpos hlt hva ((D.copyout_iff s pgdir va p hlt).mp hok)
  have hend : va.toNat + p.length = sp.toNat - d := by
    rw [addr] at hva
    have := va.isLt
    omega
  have haddr : ∀ i, i < p.length → addr va i = va.toNat + i := by
    intro i hi
    exact Nat.mod_eq_of_lt (by omega)
  obtain ⟨hbyte, hframe⟩ := D.copyout_byte s pgdir va p hlt hok
  refine ⟨by omega, by omega, fun i b hb => ?_, fun x hx => hframe x fun i hi => ?_,
    hg.copyout D⟩
  · rw [← haddr i (List.getElem?_eq_some_iff.mp hb).1]
    exact hbyte i b hb
  · rw [haddr i hi]
    omega

/-- One string. -/
theorem Pushing.snoc (D : Documented k h v) {sz : Nat} {sp : Uint}
    {blocks : List (Uint × CStr)} {t : CStr} (hp : Pushing h v pgdir sz sp blocks s)
    (hok : ¬ (k (.copyout pgdir (below sp t) t.bytes) s).1 < 0) :
    Pushing h v pgdir sz (below sp t) (blocks ++ [(below sp t, t)])
      (k (.copyout pgdir (below sp t) t.bytes) s).2 := by
  have hlow := hp.guarded.low
  have h4 := h.four_le
  have hon := hp.onPage
  obtain ⟨haligned, d, hd, hroom, hva⟩ := below_spec sp t hp.aligned (by omega)
  have hpos : 0 < t.bytes.length := by
    rw [t.bytes_length]
    exact Nat.succ_pos _
  obtain ⟨hpage, hend, hbytes, hframe, hg⟩ := hp.copied D hd hpos t.bytes_lt hva hok
  exact ⟨hg, haligned, hpage, hp.pushed.snoc hroom hend hbytes hframe⟩

/-! ### The words -/

theorem wordBytes_length (w : Uint) : (wordBytes w).length = 4 := bytesLE_length

theorem flatMap_wordBytes_length (words : List Uint) :
    (words.flatMap wordBytes).length = 4 * words.length := by
  induction words with
  | nil => rfl
  | cons w words ih =>
      rw [List.flatMap_cons, List.length_append, ih, wordBytes_length, List.length_cons]
      omega

theorem readLE_words {mem : ByteMem} {start j : Nat} {w : Uint} {words : List Uint}
    (hat : BytesAt mem start (words.flatMap wordBytes)) (hw : words[j]? = some w) :
    readLE mem (start + 4 * j) 4 = w.toNat := by
  induction words generalizing start j with
  | nil => exact absurd hw (by simp)
  | cons u words ih =>
      rw [List.flatMap_cons] at hat
      obtain ⟨hfirst, hrest⟩ := bytesAt_append.mp hat
      cases j with
      | zero =>
          obtain rfl := Option.some.inj hw
          exact hfirst.readLE.trans (Nat.mod_eq_of_lt u.isLt)
      | succ j =>
          rw [wordBytes_length] at hrest
          rw [Nat.mul_succ, Nat.add_comm (4 * j), ← Nat.add_assoc]
          exact ih hrest hw

/-- The addresses that are stored in the array. -/
def addrsOf (blocks : List (Uint × CStr)) : List Uint := blocks.map Prod.fst

theorem frameWords_length (argv : Uint) (addrs : List Uint) :
    (frameWords argv addrs).length = addrs.length + 4 := by
  simp [frameWords]

/-- With the words below them the strings are the arguments of a program. -/
theorem Pushing.startup (D : Documented k h v) {sz : Nat} {sp esp argv : Uint}
    {blocks : List (Uint × CStr)} (hp : Pushing h v pgdir sz sp blocks s)
    (hlen : blocks.length ≤ h.maxarg)
    (hargv : argv = sp - BitVec.ofNat 32 ((blocks.length + 1) * 4))
    (hesp : esp = sp - BitVec.ofNat 32 ((3 + blocks.length + 1) * 4))
    (hok : ¬ (k (.copyout pgdir esp
      ((frameWords argv (addrsOf blocks)).flatMap wordBytes)) s).1 < 0) :
    Startup (v.byte (k (.copyout pgdir esp
        ((frameWords argv (addrsOf blocks)).flatMap wordBytes)) s).2 pgdir) esp.toNat sz
      (blocks.map Prod.snd) ∧ sz - h.pgsize.toNat ≤ esp.toNat ∧
      esp.toNat + stackBytes (blocks.map Prod.snd) = sz := by
  have hbytes : ((frameWords argv (addrsOf blocks)).flatMap wordBytes).length =
      4 * (blocks.length + 4) := by
    rw [flatMap_wordBytes_length, frameWords_length, addrsOf, List.length_map]
  have hmax := h.maxarg_le
  have hsp := sp.isLt
  have hva : addr esp ((frameWords argv (addrsOf blocks)).flatMap wordBytes).length =
      sp.toNat - 0 := by
    rw [addr, hbytes, hesp, BitVec.toNat_sub, BitVec.toNat_ofNat]
    omega
  obtain ⟨hpage, hend, hat, hframe, -⟩ := hp.copied D (Nat.succ_pos 3) (by omega) (by omega) hva hok
  rw [hbytes] at hend
  generalize k (.copyout pgdir esp ((frameWords argv (addrsOf blocks)).flatMap wordBytes)) s = r
    at hat hframe ⊢
  have hptr : argv.toNat = esp.toNat + 12 := by
    rw [hargv, BitVec.toNat_sub, BitVec.toNat_ofNat]
    omega
  have harray : argvOf (v.byte r.2 pgdir) esp.toNat = esp.toNat + 12 := by
    rw [← hptr]
    exact readLE_words hat (j := 2) rfl
  have hword : ∀ j w, (addrsOf blocks ++ [0])[j]? = some w →
      argOf (v.byte r.2 pgdir) esp.toNat j = w.toNat := by
    intro j w hw
    rw [argOf, harray, Nat.add_assoc, show 12 + 4 * j = 4 * (j + 3) by omega]
    exact readLE_words hat hw
  have harg : ∀ j b, blocks[j]? = some b →
      argOf (v.byte r.2 pgdir) esp.toNat j = b.1.toNat := by
    intro j b hb
    refine hword j b.1 ?_
    rw [List.getElem?_append_left (by simpa [addrsOf] using (List.getElem?_eq_some_iff.mp hb).1),
      addrsOf, List.getElem?_map, hb, Option.map_some]
  have hblock : ∀ (j : Nat) t, (blocks.map Prod.snd)[j]? = some t →
      ∃ b, blocks[j]? = some b ∧ b ∈ blocks ∧ b.2 = t := by
    intro j t ht
    rw [List.getElem?_map] at ht
    obtain ⟨b, hb, rfl⟩ := Option.map_eq_some_iff.mp ht
    exact ⟨b, hb, List.mem_of_getElem? hb, rfl⟩
  refine ⟨?_, hpage, ?_⟩
  · constructor
    case aligned =>
      have := hp.aligned
      omega
    case returnPc => exact readLE_words hat (j := 0) rfl
    case argc =>
      refine (readLE_words hat (j := 1) rfl).trans ?_
      rw [BitVec.toNat_ofNat, addrsOf, List.length_map, List.length_map]
      omega
    case array => exact harray
    case null =>
      refine (hword _ 0 ?_).trans rfl
      rw [List.length_map, List.getElem?_append_right (by simp [addrsOf])]
      simp [addrsOf]
    case string =>
      intro j t ht
      obtain ⟨b, hb, hmem, rfl⟩ := hblock j t ht
      rw [harg j b hb]
      exact (hp.pushed.string b hmem).congr fun x hx _ =>
        hframe x (Nat.le_trans (hp.pushed.inside b hmem).1 hx)
    case above =>
      intro j t ht
      obtain ⟨b, hb, hmem, rfl⟩ := hblock j t ht
      have := hp.pushed.inside b hmem
      rw [harg j b hb, List.length_map]
      omega
    case apart =>
      intro i j t hij ht
      obtain ⟨b, hb, -, rfl⟩ := hblock j t ht
      obtain ⟨hj, rfl⟩ := List.getElem?_eq_some_iff.mp hb
      rw [harg j _ hb, harg i _ (List.getElem?_eq_getElem (by omega))]
      exact List.pairwise_iff_getElem.mp hp.pushed.apart i j (by omega) hj hij
  · have := hp.pushed.room
    rw [stackBytes, List.map_map, List.length_map]
    show esp.toNat + ((blocks.map fun b => b.2.room).sum + 4 * (4 + blocks.length)) = sz
    omega

/-! ### The parts of the function -/

/-- A string that fits is copied. -/
theorem Pushing.copies (D : Documented k h v) {sz : Nat} {sp : Uint}
    {blocks : List (Uint × CStr)} {t : CStr} {argv : List CStr}
    (hp : Pushing h v pgdir sz sp blocks s)
    (hfits : Fits h (blocks.map Prod.snd ++ t :: argv)) :
    ¬ (k (.copyout pgdir (below sp t) t.bytes) s).1 < 0 := by
  have hroom := hp.pushed.room
  have hlow := hp.guarded.low
  have h4 := h.four_le
  have hon := hp.onPage
  have hbytes := hfits.2
  rw [stackBytes, List.map_append, List.sum_append, List.map_cons, List.sum_cons,
    List.map_map] at hbytes
  change (blocks.map fun b => b.2.room).sum + _ + _ ≤ _ at hbytes
  obtain ⟨-, d, hd, hd', hva⟩ := below_spec sp t hp.aligned (by omega)
  have hb := (below sp t).isLt
  rw [addr] at hva
  exact hp.guarded.copies D (by omega) (by omega)

theorem pushArgs_memory (D : Documented k h v) (proc : Proc P) (sz : Nat) (argv : List CStr)
    (sp : Uint) (blocks : List (Uint × CStr)) (hlen : blocks.length ≤ h.maxarg) :
    Triple (fun w => w.mem = proc ∧ Pushing h v pgdir sz sp blocks w.env)
      (pushArgs k h pgdir argv blocks.length sp (Ustack.of h (addrsOf blocks)) :
        Code _ (World σ I P) _)
      (fun r w => ∃ blocks', (w.mem = proc ∧ Pushing h v pgdir sz r.2.1 blocks' w.env) ∧
        blocks'.length ≤ h.maxarg ∧ blocks'.map Prod.snd = blocks.map Prod.snd ++ argv ∧
        r.1 = blocks'.length ∧ r.2.2 = Ustack.of h (addrsOf blocks'))
      (fun _ _ => ¬ Fits h (blocks.map Prod.snd ++ argv)) := by
  induction argv generalizing sp blocks with
  | nil => exact Triple.pure fun w hw => ⟨blocks, hw, hlen, by simp, rfl, rfl⟩
  | cons t argv ih =>
      rw [pushArgs]
      refine Triple.bind (Q := fun _ w => (w.mem = proc ∧ Pushing h v pgdir sz sp blocks w.env) ∧
        blocks.length < h.maxarg) ?_ fun _ => Triple.pull fun hlt => ?_
      · refine Triple.ite (fun hmax => Triple.throw fun w hw hfits => ?_) fun hmax =>
          Triple.pure fun w hw => ⟨hw, by omega⟩
        have := hfits.1
        simp only [List.length_append, List.length_map, List.length_cons] at this
        omega
      · refine Triple.bind (Q := fun r w => w.mem = proc ∧ (¬ r < 0 →
          Pushing h v pgdir sz (below sp t) (blocks ++ [(below sp t, t)]) w.env) ∧
          (r < 0 → ¬ Fits h (blocks.map Prod.snd ++ t :: argv))) (Triple.call ?_) fun copied => ?_
        · rintro w ⟨hmem, hp⟩
          exact ⟨hmem, fun hok => hp.snoc D hok, fun hneg hfits => hp.copies D hfits hneg⟩
        · refine Triple.bind (Q := fun _ w => w.mem = proc ∧
            Pushing h v pgdir sz (below sp t) (blocks ++ [(below sp t, t)]) w.env)
            (Triple.ite (fun hneg => Triple.throw fun w hw => hw.2.2 hneg) fun hok =>
              Triple.pure fun w hw => ⟨hw.1, hw.2.1 hok⟩) fun _ => ?_
          have haddrs : (addrsOf blocks).length = blocks.length := List.length_map ..
          have hstore : (store (Ustack.of h (addrsOf blocks)) (3 + (addrsOf blocks).length)
              (below sp t) : Code (Exit I P) (World σ I P) Ustack) = _ := store_of (by omega) _
          rw [haddrs] at hstore
          rw [hstore, pure_bind]
          have hrest := ih (below sp t) (blocks ++ [(below sp t, t)]) (by simp; omega)
          simpa [addrsOf] using hrest

/-- The words of arguments that fit are copied. -/
theorem Pushing.copies_words (D : Documented k h v) {sz : Nat} {sp argv : Uint}
    {blocks : List (Uint × CStr)} (hp : Pushing h v pgdir sz sp blocks s)
    (hfits : Fits h (blocks.map Prod.snd)) :
    ¬ (k (.copyout pgdir (sp - BitVec.ofNat 32 ((3 + blocks.length + 1) * 4))
      ((frameWords argv (addrsOf blocks)).flatMap wordBytes)) s).1 < 0 := by
  have hroom := hp.pushed.room
  have hlow := hp.guarded.low
  have hmax := h.maxarg_le
  obtain ⟨hlen, hbytes⟩ := hfits
  rw [List.length_map] at hlen
  rw [stackBytes, List.length_map, List.map_map] at hbytes
  change (blocks.map fun b => b.2.room).sum + _ ≤ _ at hbytes
  have hsp := sp.isLt
  refine hp.guarded.copies D ?_ ?_
  · rw [BitVec.toNat_sub, BitVec.toNat_ofNat]
    omega
  · rw [BitVec.toNat_sub, BitVec.toNat_ofNat, flatMap_wordBytes_length, frameWords_length, addrsOf,
      List.length_map]
    omega

/-- What the part that builds the stack has done when it succeeds. -/
def Built (h : Headers) (v : View σ P) (pgdir : P) (argv : List CStr) (sz sp : Uint) (s : σ) :
    Prop :=
  Startup (v.byte s pgdir) sp.toNat sz.toNat argv ∧ sz.toNat - h.pgsize.toNat ≤ sp.toNat ∧
    sp.toNat + stackBytes argv = sz.toNat

theorem pushWords_memory (D : Documented k h v) {proc : Proc P} {sz sp : Uint}
    {blocks : List (Uint × CStr)} (hlen : blocks.length ≤ h.maxarg) :
    Triple (fun w => w.mem = proc ∧ Pushing h v pgdir sz.toNat sp blocks w.env)
      (pushWords k pgdir blocks.length sp (Ustack.of h (addrsOf blocks)) :
        Code _ (World σ I P) _)
      (fun r w => w.mem = proc ∧ Built h v pgdir (blocks.map Prod.snd) sz r w.env)
      (fun _ _ => ¬ Fits h (blocks.map Prod.snd)) := by
  have haddrs : (addrsOf blocks).length = blocks.length := List.length_map ..
  have hwords := pushWords_eq (k := k) pgdir (haddrs ▸ hlen) sp
  rw [haddrs] at hwords
  rw [hwords]
  refine Triple.bind (Q := fun r w => w.mem = proc ∧ (¬ r < 0 → Built h v pgdir
    (blocks.map Prod.snd) sz (sp - BitVec.ofNat 32 ((3 + blocks.length + 1) * 4)) w.env) ∧
    (r < 0 → ¬ Fits h (blocks.map Prod.snd))) (Triple.call ?_) fun copied => ?_
  · rintro w ⟨hmem, hp⟩
    exact ⟨hmem, fun hok => hp.startup D hlen rfl rfl hok,
      fun hneg hfits => hp.copies_words D hfits hneg⟩
  · refine Triple.bind (Q := fun _ w => w.mem = proc ∧ Built h v pgdir (blocks.map Prod.snd) sz
      (sp - BitVec.ofNat 32 ((3 + blocks.length + 1) * 4)) w.env)
      (Triple.ite (fun hneg => Triple.throw fun w hw => hw.2.2 hneg) fun hok =>
        Triple.pure fun w hw => ⟨hw.1, hw.2.1 hok⟩) fun _ => ?_
    exact Triple.pure fun _ hw => hw

/-- The two pages behind the program. -/
theorem guarded_of_allocuvm (D : Documented k h v) {sz : Uint} (hsz : sz.toNat ≤ h.kernbase)
    (halloc : (k (.allocuvm pgdir (h.pgroundup sz) (h.pgroundup sz + 2 * h.pgsize)) s).1 ≠ 0) :
    let r := k (.allocuvm pgdir (h.pgroundup sz) (h.pgroundup sz + 2 * h.pgsize)) s
    Guarded h v pgdir r.1.toNat (k (.clearpteu pgdir (r.1 - 2 * h.pgsize)) r.2).2 := by
  intro r
  obtain ⟨-, hdvd, hnew⟩ := h.roundup_spec hsz
  obtain ⟨hrsz, hlow⟩ := D.two_pages hsz halloc
  have huser := D.allocuvm_user _ _ _ _ halloc hdvd
  change ∀ a, _ → _ → v.user r.2 pgdir a at huser
  change r.1.toNat = _ at hrsz
  change (r.1 - 2 * h.pgsize).toNat = _ at hlow
  have hclear := D.clearpteu_user r.2 pgdir (r.1 - 2 * h.pgsize) (by rw [hlow]; exact hdvd)
  rw [hlow] at hclear
  rw [hnew] at huser
  constructor
  case page =>
    rw [hrsz]
    exact Nat.dvd_add hdvd (Nat.dvd_mul_left ..)
  case low => omega
  case high => exact r.1.isLt
  case guard =>
    intro a ha ha'
    exact (hclear a).1 (by omega) (by omega)
  case stack =>
    intro a ha ha'
    exact (hclear a).2 (by omega) (huser a (by omega) (by omega))

/-- The part of `exec` that builds the stack. It fails when there is no memory for two more
pages, or when the arguments do not fit on one. -/
theorem buildStack_memory (D : Documented k h v) {proc : Proc P} {env : σ} {sz : Uint}
    (hsz : sz.toNat ≤ h.kernbase) (argv : List CStr) :
    Triple (fun w => w.mem = proc ∧ w.env = env)
      (buildStack k h pgdir argv sz : Code _ (World σ I P) _)
      (fun r w => (w.mem = proc ∧ Built h v pgdir argv r.1 r.2 w.env) ∧ Fits h argv)
      (fun _ _ => (k (.allocuvm pgdir (h.pgroundup sz)
        (h.pgroundup sz + 2 * h.pgsize)) env).1 = 0 ∨ ¬ Fits h argv) := by
  rw [buildStack]
  refine Triple.bind (Q := fun r w => (w.mem = proc ∧ (r, w.env) =
    k (.allocuvm pgdir (h.pgroundup sz)
      (h.pgroundup sz + 2 * h.pgsize)) env)) (Triple.call ?_) fun top => ?_
  · rintro w ⟨hmem, rfl⟩
    exact ⟨hmem, rfl⟩
  refine Triple.bind (Q := fun _ w => (w.mem = proc ∧ (top, w.env) =
    k (.allocuvm pgdir (h.pgroundup sz) (h.pgroundup sz + 2 * h.pgsize)) env) ∧ top ≠ 0) ?_ fun _ =>
        Triple.pull fun htop => ?_
  · refine Triple.ite (fun hzero => Triple.throw fun w hw => .inl ?_) fun hne =>
      Triple.pure fun w hw => ⟨hw, hne⟩
    rw [← hw.2, hzero]
  refine Triple.bind (Q := fun _ w => w.mem = proc ∧ Guarded h v pgdir top.toNat w.env)
    (Triple.call ?_) fun _ => ?_
  · rintro w ⟨hmem, hrun⟩
    have hne : (k (.allocuvm pgdir (h.pgroundup sz)
        (h.pgroundup sz + 2 * h.pgsize)) env).1 ≠ 0 := by
      rw [← hrun]
      exact htop
    have hg := guarded_of_allocuvm D hsz hne
    rw [← hrun] at hg
    exact ⟨hmem, hg⟩
  rw [fresh_eq_of]
  refine Triple.bind ((pushArgs_memory D proc top.toNat argv top [] (Nat.zero_le _)).weaken ?_
    (fun _ _ hw => hw) fun _ _ hw => .inr hw) fun pushed => ?_
  · rintro w ⟨hmem, hg⟩
    refine ⟨hmem, hg, Nat.dvd_trans h.four_dvd hg.page, Nat.sub_le .., ?_⟩
    constructor
    case string => simp
    case inside => simp
    case apart => exact List.Pairwise.nil
    case room => rfl
  obtain ⟨argc, sp, ustack⟩ := pushed
  refine Triple.of_exists fun blocks => Triple.pull ?_
  rintro ⟨hlen, rfl, rfl, rfl⟩
  refine Triple.bind ((pushWords_memory D hlen).weaken (fun _ hw => hw) (fun _ _ hw => hw)
    fun _ _ hw => .inr hw) fun esp => ?_
  refine Triple.pure fun w hw => ⟨hw, ?_, ?_⟩
  · rwa [List.length_map]
  · have := hw.2.2
    omega

/-- When there is memory for the two pages, the part of `exec` that builds the stack succeeds
just when there are at most `MAXARG` arguments and these take at most one page: their
characters, each string rounded up to words, and four words and one for each argument. -/
theorem buildStack_iff (D : Documented k h v) (w : World σ I P) (argv : List CStr) (sz : Uint)
    (hsz : sz.toNat ≤ h.kernbase)
    (halloc : (k (.allocuvm pgdir (h.pgroundup sz) (h.pgroundup sz + 2 * h.pgsize)) w.env).1 ≠ 0) :
    (∃ r w', (buildStack k h pgdir argv sz).exec w = (.ok r, w')) ↔
      argv.length ≤ h.maxarg ∧
        (argv.map fun s => (s.chars.length + 4) / 4 * 4).sum + 4 * (4 + argv.length) ≤
          h.pgsize.toNat := by
  have hroom : (fun s : CStr => (s.chars.length + 4) / 4 * 4) = CStr.room := by
    funext s
    rw [CStr.room, s.bytes_length]
  have hspec : Triple (fun u => u.mem = w.mem ∧ u.env = w.env)
      (buildStack k h pgdir argv sz : Code _ (World σ I P) _) _ _ := buildStack_memory D hsz argv
  rw [hroom]
  refine ⟨?_, fun hfits => ?_⟩
  · rintro ⟨r, w', hrun⟩
    exact (hspec.ok ⟨rfl, rfl⟩ hrun).2
  · rcases hrun : (buildStack k h pgdir argv sz).exec w with ⟨r, w'⟩
    cases r with
    | ok r => exact ⟨r, w', rfl⟩
    | error e =>
        rcases hspec.error ⟨rfl, rfl⟩ hrun with hzero | hno
        · exact absurd hzero halloc
        · exact absurd hfits hno

/-- The two strings take one word each, and the words below them six. -/
theorem buildStack_iff_small : ∃ r w,
    (buildStack (smallKernel smallHeaders smallFile) smallHeaders 1 [letter 0, letter 1] 4096).exec
      { env := Small.start, mem := smallProc, history := [] } = (.ok r, w) :=
  (buildStack_iff (smallKernel_documented _ _) _ _ _ (by decide) (by decide)).mpr
    ⟨by decide, by decide⟩

/-! ### The function -/

/-- The image that is loaded lies in the memory of the user, in a page directory that is not
the one in use. -/
theorem loadSegments_memory (D : Documented k h v) {proc : Proc P} (ip : I) (rounds : Nat)
    (off sz : Uint) (hsz : sz.toNat ≤ h.kernbase) :
    Triple (fun w => w.mem = proc) (loadSegments k h ip pgdir rounds off sz :
        Code _ (World σ I P) _)
      (fun r w => w.mem = proc ∧ r.toNat ≤ h.kernbase) (fun _ _ => True) := by
  have hcall : ∀ op, Triple (fun w => w.mem = proc)
      (call k op : Code (Exit I P) (World σ I P) _) (fun _ w => w.mem = proc) fun _ _ => True :=
    fun _ => Triple.call fun _ hw => hw
  have hbad : ∀ (c : Prop) [Decidable c], Triple (fun w => w.mem = proc)
      (badIf c (some pgdir) (some ip) : Code _ (World σ I P) _) (fun _ w => w.mem = proc)
      fun _ _ => True :=
    fun c _ => Triple.ite (fun _ => Triple.throw fun _ _ => trivial) fun _ =>
      Triple.pure fun _ hw => hw
  induction rounds generalizing off sz with
  | zero => exact Triple.pure fun _ hw => ⟨hw, hsz⟩
  | succ rounds ih =>
      rw [loadSegments]
      refine Triple.bind (hcall _) fun read => ?_
      refine Triple.bind (hbad _) fun _ => ?_
      refine Triple.ite (fun _ => ih _ _ hsz) fun _ => ?_
      refine Triple.bind (hbad _) fun _ => ?_
      refine Triple.bind (hbad _) fun _ => ?_
      -- the size after `allocuvm`, which is 0 if that failed
      refine Triple.bind (Q := fun r w => w.mem = proc ∧ r.toNat ≤ h.kernbase) (Triple.call ?_)
        fun sz' => Triple.pull fun hsz' => ?_
      · intro w hw
        refine ⟨hw, ?_⟩
        by_cases hzero : (k (.allocuvm pgdir sz ((h.proghdr read.2).vaddr +
          (h.proghdr read.2).memsz)) w.env).1 = 0
        · rw [hzero]
          exact Nat.zero_le _
        · have := D.allocuvm_size _ _ _ _ hzero
          omega
      refine Triple.bind (hbad _) fun _ => ?_
      refine Triple.bind (hbad _) fun _ => ?_
      refine Triple.bind (hcall _) fun loaded => ?_
      refine Triple.bind (hbad _) fun _ => ?_
      exact ih _ _ hsz'

theorem loadProgram_memory (D : Documented k h v) {proc : Proc P} (ip : I) :
    Triple (fun w => w.mem = proc ∧ v.live w.env proc.pgdir)
      (loadProgram k h ip : Code _ (World σ I P) _)
      (fun r w => w.mem = proc ∧ r.2.1.toNat ≤ h.kernbase ∧ r.1 ≠ proc.pgdir)
      (fun _ _ => True) := by
  have hbad : ∀ (c : Prop) [Decidable c], Triple (fun w => w.mem = proc ∧ v.live w.env proc.pgdir)
      (badIf c none (some ip) : Code (Exit I P) (World σ I P) _)
      (fun _ w => w.mem = proc ∧ v.live w.env proc.pgdir) fun _ _ => True :=
    fun c _ => Triple.ite (fun _ => Triple.throw fun _ _ => trivial) fun _ =>
      Triple.pure fun _ hw => hw
  rw [loadProgram]
  refine Triple.bind (Q := fun _ w => w.mem = proc ∧ v.live w.env proc.pgdir) (Triple.call ?_)
    fun read => ?_
  · rintro w ⟨hmem, hlive⟩
    exact ⟨hmem, D.live_of_ne _ _ _ (by simp) hlive⟩
  refine Triple.bind (hbad _) fun _ => ?_
  refine Triple.bind (hbad _) fun _ => ?_
  refine Triple.bind (Q := fun r w => w.mem = proc ∧ r ≠ some proc.pgdir) (Triple.call ?_)
    fun made => Triple.pull fun hmade => ?_
  · rintro w ⟨hmem, hlive⟩
    exact ⟨hmem, fun heq => D.setupkvm_new _ _ heq hlive⟩
  cases made with
  | none => exact Triple.throw fun _ _ => trivial
  | some pgdir =>
      refine Triple.bind (loadSegments_memory D ip _ _ 0 (Nat.zero_le _)) fun sz => ?_
      exact Triple.pure fun w hw => ⟨hw.1, hw.2, fun heq => hmade (congrArg some heq)⟩

/-- What stands behind the last `/` of a path. -/
def BaseName (path name : List UInt8) : Prop :=
  '/'.toUInt8 ∉ name ∧ (path = name ∨ ∃ dir, path = dir ++ '/'.toUInt8 :: name)

theorem baseName_lastName {path s : List UInt8} (seen : List UInt8) (hseen : '/'.toUInt8 ∉ seen)
    (hpath : path = seen ++ s ∨ ∃ dir, path = dir ++ '/'.toUInt8 :: (seen ++ s)) :
    BaseName path (lastName s (seen ++ s)) := by
  induction s generalizing seen with
  | nil =>
      rw [lastName, List.append_nil]
      rw [List.append_nil] at hpath
      exact ⟨hseen, hpath⟩
  | cons c s ih =>
      rw [lastName]
      split
      · next hc =>
        subst hc
        -- the name starts again behind the `/`
        refine ih [] List.not_mem_nil (.inr ?_)
        rcases hpath with rfl | ⟨dir, rfl⟩
        · exact ⟨seen, rfl⟩
        · exact ⟨dir ++ '/'.toUInt8 :: seen, by simp⟩
      · next hc =>
        have hsplit : seen ++ c :: s = seen ++ [c] ++ s := by simp
        rw [hsplit] at hpath ⊢
        refine ih _ (fun hmem => ?_) hpath
        rcases List.mem_append.mp hmem with h | h
        · exact hseen h
        · exact hc (List.mem_singleton.mp h).symm

/-- What a process is after `exec` succeeded. -/
def Started (h : Headers) (v : View σ P) (path : CStr) (argv : List CStr) (w : World σ I P) :
    Prop :=
  Startup (v.byte w.env w.mem.pgdir) w.mem.esp.toNat w.mem.sz.toNat argv ∧
    w.mem.sz.toNat - h.pgsize.toNat ≤ w.mem.esp.toNat ∧
    ∃ name, BaseName path.chars name ∧ w.mem.name = name.take (h.sizeofName - 1)

theorem commitImage_memory (D : Documented k h v) {proc : Proc P} {path : CStr}
    {argv : List CStr} {sz sp : Uint} (elf : Elfhdr) (hne : pgdir ≠ proc.pgdir) :
    Triple (fun w => w.mem = proc ∧ Built h v pgdir argv sz sp w.env)
      (commitImage k h path pgdir sz sp elf : Code _ (World σ I P) _)
      (fun _ w => Started h v path argv w) (fun _ _ => True) := by
  have hname : BaseName path.chars (lastName path.chars path.chars) :=
    baseName_lastName [] List.not_mem_nil (.inl rfl)
  have hkeep : ∀ s s' : σ, v.byte s' pgdir = v.byte s pgdir →
      Built h v pgdir argv sz sp s → Built h v pgdir argv sz sp s' := by
    intro s s' heq hbuilt
    rwa [Built, heq]
  rw [commitImage]
  refine Triple.bind (Q := fun w0 w => Built h v pgdir argv sz sp w.env ∧ w0.mem = proc)
    (Triple.get ?_) fun w0 => Triple.pull fun hw0 => ?_
  · rintro w ⟨hmem, hbuilt⟩
    exact ⟨hbuilt, hmem⟩
  refine Triple.bind (Q := fun _ w => Built h v pgdir argv sz sp w.env ∧
    w.mem = newImage h path pgdir sz sp elf) (Triple.modify ?_) fun _ => ?_
  · intro w hbuilt
    exact ⟨hbuilt, rfl⟩
  refine Triple.bind (Q := fun _ w => Built h v pgdir argv sz sp w.env ∧
    w.mem = newImage h path pgdir sz sp elf) (Triple.call ?_) fun _ => ?_
  · rintro w ⟨hbuilt, hmem⟩
    exact ⟨hkeep _ _ (D.switchuvm_byte _ _ _) hbuilt, hmem⟩
  refine Triple.bind (Q := fun _ w => Started h v path argv w) (Triple.call ?_) fun _ =>
    Triple.pure fun _ hw => hw
  rintro w ⟨hbuilt, hmem⟩
  -- the old page directory is another one, so the new memory is left
  have hother : pgdir ≠ w0.mem.pgdir := by rwa [hw0]
  obtain ⟨hstart, hpage, -⟩ := hkeep _ _ (D.freevm_byte w.env _ _ hother) hbuilt
  rw [Started]
  show Startup (v.byte _ w.mem.pgdir) w.mem.esp.toNat w.mem.sz.toNat argv ∧
    w.mem.sz.toNat - h.pgsize.toNat ≤ w.mem.esp.toNat ∧
      ∃ name, BaseName path.chars name ∧ w.mem.name = name.take (h.sizeofName - 1)
  rw [hmem]
  exact ⟨hstart, hpage, _, hname, h.safestrcpy_eq _ _ h.sizeofName_pos⟩

theorem execBody_memory (D : Documented k h v) {proc : Proc P} (path : CStr) (argv : List CStr) :
    Triple (fun w => w.mem = proc ∧ v.live w.env proc.pgdir)
      (execBody k h path argv : Code _ (World σ I P) _)
      (fun r w => r = 0 → Started h v path argv w) (fun _ _ => True) := by
  have hcall : ∀ op, op ≠ .freevm proc.pgdir →
      Triple (fun w => w.mem = proc ∧ v.live w.env proc.pgdir)
        (call k op : Code (Exit I P) (World σ I P) _)
        (fun _ w => w.mem = proc ∧ v.live w.env proc.pgdir) fun _ _ => True := by
    intro op hop
    exact Triple.call fun w hw => ⟨hw.1, D.live_of_ne _ _ _ hop hw.2⟩
  have hafter : ∀ op, Triple (fun w => w.mem = proc)
      (call k op : Code (Exit I P) (World σ I P) _) (fun _ w => w.mem = proc) fun _ _ => True :=
    fun _ => Triple.call fun _ hw => hw
  rw [execBody]
  refine Triple.bind (hcall _ (by simp)) fun _ => ?_
  refine Triple.bind (hcall _ (by simp)) fun found => ?_
  cases found with
  | none =>
      refine Triple.bind (hcall _ (by simp)) fun _ => ?_
      refine Triple.bind (hcall _ (by simp)) fun _ => ?_
      exact Triple.pure fun _ _ hr => absurd hr (by decide)
  | some ip =>
      refine Triple.bind (hcall _ (by simp)) fun _ => ?_
      refine Triple.bind (loadProgram_memory D ip) fun loaded => Triple.pull ?_
      obtain ⟨pgdir, sz, elf⟩ := loaded
      rintro ⟨hsz, hne⟩
      refine Triple.bind (hafter _) fun _ => ?_
      refine Triple.bind (hafter _) fun _ => ?_
      refine Triple.bind (Q := fun r w => w.mem = proc ∧ Built h v pgdir argv r.1 r.2 w.env)
        ?_ fun built => ?_
      · intro w hmem
        exact ((buildStack_memory D hsz argv).weaken (fun _ hw => hw) (fun _ _ hw => hw.1)
          fun _ _ _ => trivial) w ⟨hmem, rfl⟩
      · obtain ⟨sz, sp⟩ := built
        exact (commitImage_memory D elf hne).weaken (fun _ hw => hw) (fun _ _ hw _ => hw)
          fun _ _ hw => hw

theorem bad_fails (pgdir : Option P) (ip : Option I) :
    Triple (fun _ => True) (bad k pgdir ip : Code _ (World σ I P) _) (fun r _ => r = -1)
      fun _ _ => True := by
  have hcall : ∀ op, Triple (fun _ => True)
      (call k op : Code (Exit I P) (World σ I P) _) (fun _ _ => True) fun _ _ => True :=
    fun _ => Triple.call fun _ hw => hw
  rw [bad]
  refine Triple.bind (Q := fun _ _ => True) (Triple.forM (fun _ _ hw => hw) fun _ _ => hcall _)
    fun _ => ?_
  refine Triple.bind (Q := fun _ _ => True) (Triple.forM (fun _ _ hw => hw) fun ip _ => ?_)
    fun _ => Triple.pure fun _ _ => rfl
  exact Triple.bind (hcall _) fun _ => hcall _

/-- When `exec` succeeds, the program finds its arguments: above the stack pointer stand a
return address, `argc`, `argv`, the array of the pointers, ended by a null pointer, and then
the strings, each with its NUL, none of which shares a byte with another or with the array,
and all of this is on the last page of the program. The process is called by what stands
behind the last `/` of the path. -/
theorem exec_startup (D : Documented k h v) (path : CStr) (argv : List CStr) (env : σ)
    (proc : Proc P) (hlive : v.live env proc.pgdir) (w : World σ I P)
    (hrun : (exec k h path argv).exec { env, mem := proc, history := [] } = (.ok 0, w)) :
    Startup (v.byte w.env w.mem.pgdir) w.mem.esp.toNat w.mem.sz.toNat argv ∧
      w.mem.sz.toNat - h.pgsize.toNat ≤ w.mem.esp.toNat ∧
      ∃ name, BaseName path.chars name ∧ w.mem.name = name.take (h.sizeofName - 1) := by
  have hspec : Triple (fun u => u.mem = proc ∧ v.live u.env proc.pgdir)
      (exec k h path argv : Code _ (World σ I P) _) (fun r w => r = 0 → Started h v path argv w)
      fun _ _ => True := by
    rw [exec]
    refine Triple.catch (execBody_memory D path argv) fun e => ?_
    cases e with
    | bad pgdir ip =>
        exact (bad_fails pgdir ip).weaken (fun _ _ => trivial)
          (fun r _ hr hzero => absurd (hr.symm.trans hzero) (by decide)) fun _ _ hw => hw
    | fault => exact Triple.throw fun _ _ => trivial
  exact hspec.ok ⟨rfl, hlive⟩ hrun rfl

theorem exec_startup_small :
    ∃ w, (exec (smallKernel smallHeaders smallFile) smallHeaders (letter 2)
        [letter 0, letter 1]).exec
        { env := Small.start, mem := smallProc, history := [] } = (.ok 0, w) ∧
      Startup (w.env.byte w.mem.pgdir) w.mem.esp.toNat w.mem.sz.toNat [letter 0, letter 1] := by
  have hok : ((exec (smallKernel smallHeaders smallFile) smallHeaders (letter 2)
      [letter 0, letter 1]).exec
        { env := Small.start, mem := smallProc, history := [] }).1.toOption = some 0 := by
    decide +kernel
  rcases hrun : (exec (smallKernel smallHeaders smallFile) smallHeaders (letter 2)
    [letter 0, letter 1]).exec { env := Small.start, mem := smallProc, history := [] } with ⟨r, w⟩
  rw [hrun] at hok
  cases r with
  | ok r =>
      obtain rfl : r = 0 := Option.some.inj hok
      have hlive : Small.view.live Small.start smallProc.pgdir := rfl
      exact ⟨w, rfl, (exec_startup (smallKernel_documented _ _) _ _ _ _ hlive w hrun).1⟩
  | error e => exact absurd hok (by simp [Except.toOption])

end

end OsLabs.Xv6
