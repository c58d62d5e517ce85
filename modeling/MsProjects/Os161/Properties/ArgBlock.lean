import MsProjects.Os161.Properties.Argv
import MsProjects.Os161.Syscall.ArgBlock

/-! # 引数の block の性質 -/

namespace Os161

open List Function UserMem

open UInt32 (le_iff_toNat_le ofNat toNat toNat_ofNat')

variable {a : Arg} {args : List Arg} {p stackptr : Vaddr} {ptrs : List Vaddr} {m : UserBytes} {d k : Nat}
  {avail : Nat → Vaddr → Bool}

/-! ## 引数の長さと番地 -/

def stackAt (d : Nat) : Vaddr := ofNat (2 ^ 31 - d)

/-- 引数に使う stack の長さの合計。 -/
def argsTotal : List Arg → Nat
  | [] => 0
  | a :: args => argsTotal args + a.len

def argAddrs : List Arg → List Vaddr
  | [] => []
  | a :: args => stackAt (argsTotal (a :: args)) :: argAddrs args

theorem toNat_stackAt (d : Nat) : (stackAt d).toNat = 2 ^ 31 - d := by
  rw [stackAt, toNat_ofNat', Nat.mod_eq_of_lt (by omega)]

theorem stackAt_sub {len : Nat} (h : d + len ≤ 2 ^ 31) : stackAt d - ofNat len = stackAt (d + len) := by
  apply toNat.inj
  rw [UInt32.toNat_sub_of_le, toNat_stackAt, toNat_stackAt, toNat_ofNat', Nat.mod_eq_of_lt (by omega)]
  · omega
  · rw [le_iff_toNat_le, toNat_stackAt, toNat_ofNat', Nat.mod_eq_of_lt (by omega)]
    omega

theorem length_argAddrs (args : List Arg) : (argAddrs args).length = args.length := by
  induction args with
  | nil => rfl
  | cons a args ih => rw [argAddrs, length_cons, length_cons, ih]

theorem Arg.lt_len (a : Arg) : a.str.length < a.len := by
  rw [Arg.len, paddedLen_eq]
  omega

theorem Arg.len_mod (a : Arg) : a.len % 4 = 0 := by
  rw [Arg.len, paddedLen_eq]
  omega

theorem Arg.len_le (h : a.str.length ≤ 254) : a.len ≤ 256 := by
  rw [Arg.len, paddedLen_eq]
  omega

theorem Arg.length_bytes (a : Arg) : a.bytes.length = a.len := by
  have h := a.lt_len
  rw [Arg.bytes, length_append, length_cons, length_map, length_range]
  omega

theorem Arg.getElem?_bytes {b : UInt8} (h : (a.str ++ [0])[k]? = some b) : a.bytes[k]? = some b := by
  rw [Arg.bytes, ← singleton_append, ← append_assoc]
  rw [getElem?_append_left (List.getElem?_eq_some_iff.mp h).1, h]

theorem argsTotal_mod (args : List Arg) : argsTotal args % 4 = 0 := by
  induction args with
  | nil => rfl
  | cons a args ih =>
    have h := a.len_mod
    rw [argsTotal]
    omega

theorem argsTotal_le (h : ∀ a ∈ args, a.str.length ≤ 254) : argsTotal args ≤ 256 * args.length := by
  induction args with
  | nil => simp [argsTotal]
  | cons a args ih =>
    have hhead := Arg.len_le (h a mem_cons_self)
    have htail := ih fun b hb => h b (mem_cons_of_mem _ hb)
    rw [argsTotal, length_cons]
    omega

theorem argsTotal_le_of_suffix {rest : List Arg} (h : rest <:+ args) : argsTotal rest ≤ argsTotal args := by
  induction args with
  | nil => rw [suffix_nil.mp h]
  | cons a args ih =>
    rcases suffix_cons_iff.mp h with rfl | h
    · exact le_rfl
    · exact (ih h).trans (Nat.le_add_right _ _)

theorem mem_zip_argAddrs {x : Vaddr × Arg} :
    x ∈ (argAddrs args).zip args ↔ ∃ rest, x.2 :: rest <:+ args ∧
      x.1 = stackAt (argsTotal (x.2 :: rest)) := by
  induction args with
  | nil => simp [argAddrs]
  | cons a args ih =>
    rw [argAddrs, zip_cons_cons, mem_cons, ih]
    constructor
    · rintro (rfl | ⟨rest, hrest, hx⟩)
      · exact ⟨args, suffix_refl _, rfl⟩
      · exact ⟨rest, hrest.trans (suffix_cons a args), hx⟩
    · rintro ⟨rest, hrest, hx⟩
      rcases suffix_cons_iff.mp hrest with he | hrest
      · obtain ⟨rfl, rfl⟩ := cons.inj he
        exact .inl (Prod.ext hx rfl)
      · exact .inr ⟨rest, hrest, hx⟩

/-! ## 語 -/

theorem length_flatMap_wordBytes (ws : List UInt32) : (ws.flatMap wordBytes).length = 4 * ws.length := by
  induction ws with
  | nil => rfl
  | cons w ws ih =>
    rw [flatMap_cons, length_append, ih, length_cons]
    show 4 + _ = _
    omega

theorem getElem?_flatMap_wordBytes {ws : List UInt32} {w : UInt32} {i j : Nat}
    (hw : ws[i]? = some w) (hj : j < 4) :
    (ws.flatMap wordBytes)[4 * i + j]? = (wordBytes w)[j]? := by
  induction ws generalizing i with
  | nil => cases hw
  | cons v ws ih =>
    rw [flatMap_cons]
    cases i with
    | zero =>
      obtain rfl : v = w := Option.some.inj hw
      rw [getElem?_append_left (by simpa [wordBytes] using hj)]
      congr 1
      omega
    | succ i =>
      rw [getElem?_append_right (by simp [wordBytes]; omega), ← ih hw]
      congr 1
      simp only [wordBytes, length_cons, length_nil]
      omega

theorem wordBytes_inj {v w : UInt32} (h : wordBytes v = wordBytes w) : v = w := by
  simp only [wordBytes, cons.injEq, and_true] at h
  obtain ⟨h1, h2, h3, h4⟩ := h
  have e1 := congrArg UInt8.toNat h1
  have e2 := congrArg UInt8.toNat h2
  have e3 := congrArg UInt8.toNat h3
  have e4 := congrArg UInt8.toNat h4
  simp only [UInt32.toNat_toUInt8, UInt32.toNat_shiftRight, Nat.shiftRight_eq_div_pow] at e1 e2 e3 e4
  have hv := v.toNat_lt
  have hw := w.toNat_lt
  simp at e1 e2 e3 e4
  exact toNat.inj (by omega)

/-! ## block -/

/-- `p` から順に `bs` が読める。 -/
def Reads (m : UserBytes) (p : Vaddr) (bs : List UInt8) : Prop :=
  ∀ i b, bs[i]? = some b → m (p + ofNat i) = b

theorem Reads.unique {bs bs' : List UInt8} (h : Reads m p bs) (h' : Reads m p bs')
    (hlen : bs.length = bs'.length) :
    bs = bs' := by
  refine ext_getElem hlen fun i hi hi' => ?_
  exact (h i _ (getElem?_eq_getElem hi)).symm.trans (h' i _ (getElem?_eq_getElem hi'))

/-- 番地の並び `ptrs` と文字列が、user の memory に置かれている。 -/
structure ArgBlockAt (args : List Arg) (ptrs : List Vaddr) (stackptr : Vaddr) (m : UserBytes) : Prop where
  length : ptrs.length = args.length
  words : ∀ (i : Nat) (w : UInt32), (ptrs ++ [0])[i]? = some w →
    Reads m (stackptr + ofNat (4 * i)) (wordBytes w)
  copies : ∀ x ∈ ptrs.zip args, Reads m x.1 (x.2.str ++ [0])
  aligned : stackptr.toNat % 4 = 0 ∧ ∀ p ∈ ptrs, p.toNat % 4 = 0
  apart : (ptrs.zip args).Pairwise fun x y =>
    x.1.toNat + x.2.str.length + 1 ≤ y.1.toNat ∨ y.1.toNat + y.2.str.length + 1 ≤ x.1.toNat
  off : ∀ x ∈ ptrs.zip args, stackptr.toNat + 4 * (args.length + 1) ≤ x.1.toNat ∨
    x.1.toNat + x.2.str.length + 1 ≤ stackptr.toNat
  inside : stackBase ≤ stackptr ∧ stackptr.toNat + 4 * (args.length + 1) ≤ userstack.toNat ∧
    ∀ x ∈ ptrs.zip args, stackBase ≤ x.1 ∧ x.1.toNat + x.2.str.length + 1 ≤ userstack.toNat

/-- 呼び出しが引数の block を置いた。 -/
def ArgsBuilt (args : List Arg) (r : Vaddr × UserBytes) : Prop := ∃ ptrs, ArgBlockAt args ptrs r.1 r.2

/-- 番地の並びの先頭までの距離。 -/
def arrayDepth (args : List Arg) : Nat := argsTotal args + 4 * args.length * 4

/-- 文字のある page がどれも、それを置く `copyout` で使える。 -/
def StringsAvail (avail : Nat → Vaddr → Bool) (args : List Arg) : Prop :=
  ∀ a rest, a :: rest <:+ args → ∀ i < a.str.length,
    avail rest.length ((stackAt (argsTotal (a :: rest)) + ofNat i) &&& pageFrame) = true

/-- 番地のある page がどれも、番地の並びを置く `copyout` で使える。 -/
def WordsAvail (avail : Nat → Vaddr → Bool) (args : List Arg) : Prop :=
  ∀ i < args.length, avail args.length ((stackAt (arrayDepth args) + ofNat (4 * i)) &&& pageFrame) = true

/-! ## 配置 -/

theorem pairwise_zip_argAddrs (htotal : argsTotal args ≤ 2 ^ 20) :
    ((argAddrs args).zip args).Pairwise fun x y =>
      x.1.toNat + x.2.str.length + 1 ≤ y.1.toNat ∨ y.1.toNat + y.2.str.length + 1 ≤ x.1.toNat := by
  induction args with
  | nil => exact .nil
  | cons a args ih =>
    have hsum : argsTotal (a :: args) = argsTotal args + a.len := rfl
    rw [argAddrs, zip_cons_cons, pairwise_cons]
    refine ⟨?_, ih (by omega)⟩
    intro y hy
    obtain ⟨rest, hrest, hy⟩ := mem_zip_argAddrs.mp hy
    have hle := argsTotal_le_of_suffix hrest
    have hlt := a.lt_len
    left
    show (stackAt (argsTotal (a :: args))).toNat + a.str.length + 1 ≤ y.1.toNat
    rw [hy, toNat_stackAt, toNat_stackAt]
    omega

section

variable (hpos : 1 ≤ args.length) (hn : args.length ≤ 511) (hlen : ∀ a ∈ args, a.str.length ≤ 254)

include hn hlen

theorem arrayDepth_le : arrayDepth args ≤ 2 ^ 20 := by
  have h := argsTotal_le hlen
  rw [arrayDepth]
  omega

include hpos

theorem argBlockAt_of_reads
    (hwords : ∀ (i : Nat) (w : UInt32), (argAddrs args ++ [0])[i]? = some w →
      Reads m (stackAt (arrayDepth args) + ofNat (4 * i)) (wordBytes w))
    (hcopies : ∀ a rest, a :: rest <:+ args → Reads m (stackAt (argsTotal (a :: rest))) (a.str ++ [0])) :
    ArgBlockAt args (argAddrs args) (stackAt (arrayDepth args)) m := by
  have hdepth : arrayDepth args = argsTotal args + 4 * args.length * 4 := rfl
  have hmax := arrayDepth_le hn hlen
  have hmod := argsTotal_mod args
  have hsp := toNat_stackAt (arrayDepth args)
  have hbase : stackBase.toNat = 2 ^ 31 - 2 ^ 20 := rfl
  have htop : userstack.toNat = 2 ^ 31 := rfl
  -- 一つの文字列の範囲
  have hstring : ∀ x ∈ (argAddrs args).zip args, x.1.toNat % 4 = 0 ∧ 2 ^ 31 - argsTotal args ≤ x.1.toNat ∧
      x.1.toNat + x.2.str.length + 1 ≤ 2 ^ 31 := by
    intro x hx
    obtain ⟨rest, hrest, hx⟩ := mem_zip_argAddrs.mp hx
    have hle := argsTotal_le_of_suffix hrest
    have hxmod := argsTotal_mod (x.2 :: rest)
    have hlt := x.2.lt_len
    have hsum : argsTotal (x.2 :: rest) = argsTotal rest + x.2.len := rfl
    rw [hx, toNat_stackAt]
    omega
  refine ⟨length_argAddrs args, hwords, ?_, ⟨by omega, ?_⟩, pairwise_zip_argAddrs (by omega), ?_,
    ?_, by omega, ?_⟩
  · intro x hx
    obtain ⟨rest, hrest, hx⟩ := mem_zip_argAddrs.mp hx
    rw [hx]
    exact hcopies x.2 rest hrest
  · intro p hp
    obtain ⟨i, hi, rfl⟩ := getElem_of_mem hp
    have hi' : i < args.length := length_argAddrs args ▸ hi
    have hmem : ((argAddrs args)[i], args[i]) ∈ (argAddrs args).zip args :=
      mem_iff_getElem.mpr ⟨i, by rw [length_zip]; omega, getElem_zip⟩
    exact (hstring _ hmem).1
  · intro x hx
    obtain ⟨-, hlow, -⟩ := hstring x hx
    left
    omega
  · rw [le_iff_toNat_le]
    omega
  · intro x hx
    obtain ⟨-, hlow, hhigh⟩ := hstring x hx
    rw [le_iff_toNat_le]
    omega

end

/-! ## 文字列を置く loop -/

theorem copyout_stackAt (bs : List UInt8) (hbs : 1 ≤ bs.length) (hd : bs.length ≤ d) (hmax : d ≤ 2 ^ 20)
    (um : UserMem) : copyout um bs (stackAt d) = um.store bs (stackAt d) := by
  have hlen : (ofNat bs.length).toNat = bs.length := by
    rw [toNat_ofNat', Nat.mod_eq_of_lt (by omega)]
  refine (copyout_eq (by omega) (by omega) um hlen.symm).trans (if_pos ?_)
  rw [InUser, toNat_stackAt, hlen, show userspacetop.toNat = 2 ^ 31 from rfl]
  omega

/-- `p` から `i` 個目の byte までの page がどれも、`k` 回目の `copyout` で使える。 -/
def Reaches (avail : Nat → Vaddr → Bool) (k : Nat) (p : Vaddr) (i : Nat) : Prop :=
  ∀ j ≤ i, avail k ((p + ofNat j) &&& pageFrame) = true

instance (avail : Nat → Vaddr → Bool) (k : Nat) (p : Vaddr) (i : Nat) : Decidable (Reaches avail k p i) :=
  inferInstanceAs (Decidable (∀ j ≤ i, _))

/-- 文字列を置いた後の memory。 -/
structure Pushed (avail : Nat → Vaddr → Bool) (args : List Arg) (m m' : UserBytes) : Prop where
  below : ∀ x : Vaddr, x.toNat + argsTotal args < 2 ^ 31 → m' x = m x
  bytes : ∀ a rest, a :: rest <:+ args → ∀ i b, a.bytes[i]? = some b →
    m' (stackAt (argsTotal (a :: rest)) + ofNat i) =
      if Reaches avail rest.length (stackAt (argsTotal (a :: rest))) i then b
      else m (stackAt (argsTotal (a :: rest)) + ofNat i)

theorem pushArgs_spec (avail : Nat → Vaddr → Bool) (m : UserBytes) (htotal : argsTotal args ≤ 2 ^ 20) :
    ∃ m', pushArgs avail args m = (argAddrs args, stackAt (argsTotal args), m') ∧
      Pushed avail args m m' := by
  induction args with
  | nil =>
    refine ⟨m, rfl, fun _ _ => rfl, fun a rest h => ?_⟩
    cases suffix_nil.mp h
  | cons a args ih =>
    have hsum : argsTotal (a :: args) = argsTotal args + a.len := rfl
    have hbytes := a.length_bytes
    have hlt := a.lt_len
    have hat := toNat_stackAt (argsTotal (a :: args))
    obtain ⟨m', heq, hpushed⟩ := ih (by omega)
    have hfit : (stackAt (argsTotal (a :: args))).toNat + a.bytes.length ≤ 2 ^ 32 := by omega
    have hstore := copyout_stackAt a.bytes (by omega) (by omega) htotal ⟨m', avail args.length⟩
    refine ⟨(store ⟨m', avail args.length⟩ a.bytes (stackAt (argsTotal (a :: args)))).2.byte, ?_,
      fun x hx => ?_, fun b rest hrest i c hc => ?_⟩
    · rw [pushArgs, heq]
      dsimp only
      rw [stackAt_sub (by omega), ← hsum, hstore]
      rfl
    · rw [byte_store_of_not_mem hfit (by omega)]
      exact hpushed.below x (by omega)
    · have hi : i < b.bytes.length := (List.getElem?_eq_some_iff.mp hc).1
      have hb := b.length_bytes
      have hbsum : argsTotal (b :: rest) = argsTotal rest + b.len := rfl
      have hle := argsTotal_le_of_suffix hrest
      have hx := toNat_add_ofNat (a := stackAt (argsTotal (b :: rest))) (k := i)
        (by rw [toNat_stackAt]; omega)
      rw [toNat_stackAt] at hx
      rcases suffix_cons_iff.mp hrest with he | hrest
      · obtain ⟨rfl, rfl⟩ := cons.inj he
        rw [byte_store hfit hc]
        refine if_congr Iff.rfl rfl ?_
        exact hpushed.below _ (by omega)
      · have hle' := argsTotal_le_of_suffix hrest
        rw [byte_store_of_not_mem hfit (by omega)]
        exact hpushed.bytes b rest hrest i c hc

/-! ## 番地の並び -/

theorem reaches_word_iff {i j : Nat} (hp : p.toNat % 4 = 0) (hfit : p.toNat + (4 * i + 4) ≤ 2 ^ 32)
    (hj : j < 4) :
    Reaches avail k p (4 * i + j) ↔ ∀ l ≤ i, avail k ((p + ofNat (4 * l)) &&& pageFrame) = true := by
  refine ⟨fun h l hl => h (4 * l) (by omega), fun h l hl => ?_⟩
  have hpage : (p + ofNat l) &&& pageFrame = (p + ofNat (4 * (l / 4))) &&& pageFrame := by
    apply toNat.inj
    rw [toNat_and_pageFrame, toNat_and_pageFrame, toNat_add_ofNat (by omega), toNat_add_ofNat (by omega)]
    omega
  rw [hpage]
  exact h (l / 4) (by omega)

section

variable (hpos : 1 ≤ args.length) (hn : args.length ≤ 511) (hlen : ∀ a ∈ args, a.str.length ≤ 254)

include hn hlen hpos

theorem buildArgs_spec (avail : Nat → Vaddr → Bool) :
    ∃ m', buildArgs avail args (fun _ => 0) = (stackAt (arrayDepth args), m') ∧
      (∀ a rest, a :: rest <:+ args → ∀ i b, a.bytes[i]? = some b →
        m' (stackAt (argsTotal (a :: rest)) + ofNat i) =
          if Reaches avail rest.length (stackAt (argsTotal (a :: rest))) i then b else 0) ∧
      ∀ i w, (argAddrs args ++ [0])[i]? = some w → Reads m' (stackAt (arrayDepth args) + ofNat (4 * i))
        (wordBytes (if Reaches avail args.length (stackAt (arrayDepth args)) (4 * i) then w else 0)) := by
  have hdepth : arrayDepth args = argsTotal args + 4 * args.length * 4 := rfl
  have hmax := arrayDepth_le hn hlen
  have hmod := argsTotal_mod args
  have hsp := toNat_stackAt (arrayDepth args)
  have haddrs := length_argAddrs args
  have hbs := length_flatMap_wordBytes (argAddrs args ++ [0])
  rw [length_append, length_singleton, haddrs] at hbs
  obtain ⟨m', heq, hpushed⟩ := pushArgs_spec avail (fun _ => 0) (show argsTotal args ≤ 2 ^ 20 by omega)
  have hfit : (stackAt (arrayDepth args)).toNat +
    ((argAddrs args ++ [0]).flatMap wordBytes).length ≤ 2 ^ 32 := by omega
  have hstore := copyout_stackAt ((argAddrs args ++ [0]).flatMap wordBytes) (d := arrayDepth args)
    (by omega)
    (by omega) hmax ⟨m', avail args.length⟩
  refine ⟨(store ⟨m', avail args.length⟩ ((argAddrs args ++ [0]).flatMap wordBytes)
    (stackAt (arrayDepth args))).2.byte, ?_, fun a rest hrest i b hb => ?_, fun i w hw j b hb => ?_⟩
  · rw [buildArgs, heq]
    dsimp only
    rw [stackAt_sub (by omega), ← hdepth, hstore]
  · have hi : i < a.bytes.length := (List.getElem?_eq_some_iff.mp hb).1
    have hlen := a.length_bytes
    have hle := argsTotal_le_of_suffix hrest
    have hsum : argsTotal (a :: rest) = argsTotal rest + a.len := rfl
    have hx := toNat_add_ofNat (a := stackAt (argsTotal (a :: rest))) (k := i)
      (by rw [toNat_stackAt]; omega)
    rw [toNat_stackAt] at hx
    rw [byte_store_of_not_mem hfit (by omega)]
    exact hpushed.bytes a rest hrest i b hb
  · have hi : i < (argAddrs args ++ [0]).length := (List.getElem?_eq_some_iff.mp hw).1
    rw [length_append, length_singleton, haddrs] at hi
    have hj : j < 4 := (List.getElem?_eq_some_iff.mp hb).1
    have hbyte : ((argAddrs args ++ [0]).flatMap wordBytes)[4 * i + j]? = (wordBytes w)[j]? :=
      getElem?_flatMap_wordBytes hw hj
    have hx := toNat_add_ofNat (a := stackAt (arrayDepth args)) (k := 4 * i + j) (by omega)
    rw [UInt32.add_assoc, ← UInt32.ofNat_add]
    have hcond : Reaches avail args.length (stackAt (arrayDepth args)) (4 * i + j) ↔
        Reaches avail args.length (stackAt (arrayDepth args)) (4 * i) :=
      (reaches_word_iff (by omega) (by omega) hj).trans
        (reaches_word_iff (j := 0) (by omega) (by omega) (by omega)).symm
    obtain ⟨c, hc⟩ : ∃ c, (wordBytes w)[j]? = some c := ⟨_, getElem?_eq_getElem hj⟩
    rw [byte_store hfit (hbyte.trans hc)]
    by_cases havail : Reaches avail args.length (stackAt (arrayDepth args)) (4 * i)
    · rw [if_pos havail, hc] at hb
      exact (if_pos (hcond.mpr havail)).trans (Option.some.inj hb)
    · rw [if_neg havail] at hb
      refine (if_neg (mt hcond.mp havail)).trans ((hpushed.below _ (by omega)).trans ?_)
      exact mem_replicate.mp (show b ∈ replicate 4 0 from mem_of_getElem? hb) |>.2.symm

end

theorem ptrs_eq_argAddrs {m : UserBytes} (h : ArgBlockAt args ptrs (stackAt (arrayDepth args)) m)
    (hwords : ∀ i w, (argAddrs args ++ [0])[i]? = some w →
      Reads m (stackAt (arrayDepth args) + ofNat (4 * i))
        (wordBytes (if Reaches avail args.length (stackAt (arrayDepth args)) (4 * i) then w else 0))) :
    ptrs = argAddrs args ∧ WordsAvail avail args := by
  have haddrs := length_argAddrs args
  have hword : ∀ i (hi : i < args.length), ptrs[i]? = (argAddrs args)[i]? ∧
      avail args.length ((stackAt (arrayDepth args) + ofNat (4 * i)) &&& pageFrame) = true := by
    intro i hi
    have hi' : i < ptrs.length := h.length ▸ hi
    have hp : ptrs[i]? = some ptrs[i] := getElem?_eq_getElem hi'
    have ha : (argAddrs args)[i]? = some (argAddrs args)[i] := getElem?_eq_getElem (haddrs ▸ hi)
    have heq := wordBytes_inj ((h.words i _ ((getElem?_append_left hi').trans hp)).unique
      (hwords i _ ((getElem?_append_left (haddrs ▸ hi)).trans ha)) rfl)
    split at heq
    · next havail => exact ⟨by rw [hp, ha, heq], havail (4 * i) le_rfl⟩
    · -- 0 は stack の番地でない
      have hmem : (ptrs[i], args[i]) ∈ ptrs.zip args :=
        mem_iff_getElem.mpr ⟨i, by rw [length_zip, h.length]; omega, getElem_zip⟩
      have hbase : stackBase ≤ ptrs[i] := (h.inside.2.2 _ hmem).1
      rw [heq] at hbase
      exact absurd hbase (by decide)
  have hlength := h.length
  refine ⟨ext_getElem? fun i => ?_, fun i hi => (hword i hi).2⟩
  by_cases hi : i < args.length
  · exact (hword i hi).1
  · rw [getElem?_eq_none (by omega), getElem?_eq_none (by omega)]

/--
**引数の block が正しく置かれるのは、文字のある page と番地のある page がどれも、それを置く `copyout` で使えるときに限る。**
-/
theorem arg_block_built_iff (hpos : 1 ≤ args.length) (hn : args.length ≤ 511)
    (hlen : ∀ a ∈ args, a.str.length ≤ 254) (avail : Nat → Vaddr → Bool) :
    (ArgsBuilt args (sysExecvArgs avail args fun _ => 0) ↔ StringsAvail avail args ∧
      WordsAvail avail args) ∧
      (ArgsBuilt args (runprogramArgs avail args fun _ => 0) ↔ StringsAvail avail args ∧
        WordsAvail avail args) := by
  refine and_self_iff.mpr ?_
  obtain ⟨m', heq, hbytes, hwords⟩ := buildArgs_spec hpos hn hlen avail
  show (∃ ptrs, ArgBlockAt args ptrs (buildArgs avail args fun _ => 0).1
    (buildArgs avail args fun _ => 0).2) ↔ _
  rw [heq]
  dsimp only
  constructor
  · rintro ⟨ptrs, h⟩
    obtain ⟨rfl, havail⟩ := ptrs_eq_argAddrs h hwords
    refine ⟨fun a rest hrest i hi => ?_, havail⟩
    have hmem : (stackAt (argsTotal (a :: rest)), a) ∈ (argAddrs args).zip args :=
      mem_zip_argAddrs.mpr ⟨rest, hrest, rfl⟩
    have hchar : (a.str ++ [0])[i]? = some a.str[i] := by
      rw [getElem?_append_left hi, getElem?_eq_getElem hi]
    have hread := (h.copies _ hmem i _ hchar).symm.trans
      (hbytes a rest hrest i _ (Arg.getElem?_bytes hchar))
    split at hread
    · next hall => exact hall i le_rfl
    · exact absurd hread (a.nonzero _ (getElem_mem hi))
  · rintro ⟨hstrings, havail⟩
    refine ⟨_, argBlockAt_of_reads hpos hn hlen (fun i w hw => ?_) fun a rest hrest i b hb => ?_⟩
    · have hread := hwords i w hw
      by_cases hi : i < args.length
      · have hdepth := arrayDepth_le hn hlen
        have hsp := toNat_stackAt (arrayDepth args)
        have hmod := argsTotal_mod args
        have hreach : Reaches avail args.length (stackAt (arrayDepth args)) (4 * i) :=
          (reaches_word_iff (j := 0) (by rw [arrayDepth] at *; omega) (by omega) (by omega)).mpr
            fun j hj => havail j (by omega)
        rwa [if_pos hreach] at hread
      · -- 最後の語は 0 である
        have hlength := (List.getElem?_eq_some_iff.mp hw).1
        rw [length_append, length_singleton, length_argAddrs] at hlength
        obtain rfl : w = 0 := by
          rw [getElem?_append_right (by rw [length_argAddrs]; omega)] at hw
          exact mem_singleton.mp (mem_of_getElem? hw)
        rwa [ite_self] at hread
    · rw [hbytes a rest hrest i b (Arg.getElem?_bytes hb)]
      by_cases hi : i < a.str.length
      · exact if_pos fun j hj => hstrings a rest hrest j (by omega)
      · rw [getElem?_append_right (by omega)] at hb
        rw [mem_singleton.mp (mem_of_getElem? hb), ite_self]

theorem nonzero_of_all {str : List UInt8} (h : str.all (· != 0) = true) : ∀ b ∈ str, b ≠ 0 := by
  simpa using h

/-- `ls -l /testbin` の引数。 -/
def lsArgs : List Arg :=
  [⟨[108, 115], fun _ => 255, nonzero_of_all rfl⟩, ⟨[45, 108], fun _ => 255, nonzero_of_all rfl⟩,
    ⟨[47, 116, 101, 115, 116, 98, 105, 110], fun _ => 255, nonzero_of_all rfl⟩]

theorem arg_block_built_iff_ls :
    ArgsBuilt lsArgs (sysExecvArgs (fun _ _ => true) lsArgs fun _ => 0) ∧
      ArgsBuilt lsArgs (runprogramArgs (fun _ _ => true) lsArgs fun _ => 0) := by
  obtain ⟨hexecv, hrun⟩ := @arg_block_built_iff lsArgs (by decide) (by decide) (by decide)
    fun _ _ => true
  exact ⟨hexecv.mpr ⟨fun _ _ _ _ _ => rfl, fun _ _ => rfl⟩, hrun.mpr ⟨fun _ _ _ _ _ => rfl, fun _ _ => rfl⟩⟩

def oneArg : Arg := ⟨[97], fun _ => 0, nonzero_of_all rfl⟩

/-- どの page にも frame が無ければ、block は置かれない。 -/
theorem arg_block_not_built :
    ¬ ArgsBuilt [oneArg] (sysExecvArgs (fun _ _ => false) [oneArg] fun _ => 0) ∧
      ¬ ArgsBuilt [oneArg] (runprogramArgs (fun _ _ => false) [oneArg] fun _ => 0) := by
  refine and_self_iff.mpr ?_
  rintro ⟨ptrs, h⟩
  obtain ⟨p, rfl⟩ := length_eq_one_iff.mp h.length
  have hword : wordBytes p = [0, 0, 0, 0] := (h.words 0 p rfl).unique (fun i b hb => ?_) rfl
  · have hbase := (h.inside.2.2 _ mem_cons_self).1
    rw [wordBytes_inj (hword.trans (show _ = wordBytes 0 from rfl))] at hbase
    exact absurd hbase (by decide)
  · exact (mem_replicate.mp (show b ∈ replicate 4 0 from mem_of_getElem? hb)).2.symm

end Os161
