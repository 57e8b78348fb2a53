import OptimistOS.Foundation.Layout

/-!
# Stacks of words

A stack that grows downwards in byte memory, in units of eight bytes.
`WordsAt m p ws` says that the words `ws` lie from `p` upwards; pushing puts one
word in front (`WordsAt.push`), popping takes the first one away
(`WordsAt.tail`), and nothing is assumed about what lies below. A record whose
members are words, `Layout.ofWords`, is such a list of words.
-/

namespace ByteMemory

def pushWord {w : ℕ} (m : Mem w) (sp : BitVec w) (v : BitVec 64) : Mem w :=
  storeWord m (sp - BitVec.ofNat w 8) v

def WordsAt {w : ℕ} (m : Mem w) : BitVec w → List (BitVec 64) → Prop
  | _, [] => True
  | p, v :: vs => word m p = v ∧ WordsAt m (p + BitVec.ofNat w 8) vs

theorem wordsAt_cons {w : ℕ} {m : Mem w} {p : BitVec w} {v : BitVec 64}
    {vs : List (BitVec 64)} :
    WordsAt m p (v :: vs) ↔
      word m p = v ∧ WordsAt m (p + BitVec.ofNat w 8) vs :=
  Iff.rfl

theorem word_pushWord {w : ℕ} (m : Mem w) (sp : BitVec w) (v : BitVec 64)
    (hw : 8 ≤ 2 ^ w) :
    word (pushWord m sp v) (sp - BitVec.ofNat w 8) = v :=
  word_storeWord m _ v hw

theorem WordsAt.congr {w : ℕ} {m m' : Mem w} {p : BitVec w}
    {vs : List (BitVec 64)} (h : WordsAt m p vs) (hw : 8 * vs.length ≤ 2 ^ w)
    (hm : ∀ x ∈ region p (8 * vs.length), m x = m' x) : WordsAt m' p vs := by
  induction vs generalizing p with
  | nil => trivial
  | cons v vs ih =>
      rw [List.length_cons] at hw hm
      obtain ⟨hv, hvs⟩ := h
      refine ⟨?_, ih hvs (by omega) fun x hx => hm x ?_⟩
      · rw [← hv, word, word, load_congr (by omega) fun x hx =>
          hm x (region_mono p (by omega) hx)]
      · exact region_subset_of_le p (by omega) hw hx

theorem WordsAt.push {w : ℕ} {m : Mem w} {sp : BitVec w}
    {vs : List (BitVec 64)} (h : WordsAt m sp vs)
    (hw : 8 * (vs.length + 1) ≤ 2 ^ w) (v : BitVec 64) :
    WordsAt (pushWord m sp v) (sp - BitVec.ofNat w 8) (v :: vs) := by
  refine ⟨word_pushWord m sp v (by omega), ?_⟩
  rw [BitVec.sub_add_cancel]
  refine h.congr (by omega) fun x hx => (store_of_notMem m _ ?_).symm
  have hdisj := disjoint_region_of_le (sp - BitVec.ofNat w 8) (i := 0) (n := 8)
    (j := 8) (k := 8 * vs.length) le_rfl (by omega)
  rw [BitVec.sub_add_cancel, show BitVec.ofNat w 0 = 0#w from rfl,
    BitVec.add_zero] at hdisj
  exact Set.disjoint_right.1 hdisj hx

theorem WordsAt.head {w : ℕ} {m : Mem w} {p : BitVec w} {v : BitVec 64}
    {vs : List (BitVec 64)} (h : WordsAt m p (v :: vs)) : word m p = v :=
  h.1

theorem WordsAt.tail {w : ℕ} {m : Mem w} {p : BitVec w} {v : BitVec 64}
    {vs : List (BitVec 64)} (h : WordsAt m p (v :: vs)) :
    WordsAt m (p + BitVec.ofNat w 8) vs :=
  h.2

theorem WordsAt.get {w : ℕ} {m : Mem w} {p : BitVec w} {vs : List (BitVec 64)}
    (h : WordsAt m p vs) {i : ℕ} {v : BitVec 64} (hi : vs[i]? = some v) :
    word m (p + BitVec.ofNat w (8 * i)) = v := by
  induction vs generalizing p i with
  | nil => exact absurd hi (by simp)
  | cons u us ih =>
      cases i with
      | zero =>
          rw [List.getElem?_cons_zero, Option.some.injEq] at hi
          rw [Nat.mul_zero, show BitVec.ofNat w 0 = 0#w from rfl,
            BitVec.add_zero, ← hi]
          exact h.head
      | succ i =>
          rw [List.getElem?_cons_succ] at hi
          rw [← ih h.tail hi, add_ofNat_add_ofNat,
            show 8 + 8 * i = 8 * (i + 1) by omega]

def Layout.ofWords {w : ℕ} {F : Type*} [DecidableEq F] (members : List F)
    (hall : ∀ f, f ∈ members) (hw : 8 * members.length ≤ 2 ^ w) :
    Layout w F where
  offset f := 8 * members.idxOf f
  width _ := 8
  sizeof := 8 * members.length
  fits f := by
    have hlt := List.idxOf_lt_length_of_mem (hall f)
    omega
  apart f g h := by
    have hne : members.idxOf f ≠ members.idxOf g := fun he =>
      h ((List.idxOf_inj (hall f)).1 he)
    omega
  sizeof_le := hw

theorem WordsAt.get_ofWords {F : Type*} [DecidableEq F] {members : List F}
    {hall : ∀ f, f ∈ members} {hw : 8 * members.length ≤ 2 ^ 64} {m : Mem 64}
    {p : BitVec 64} {v : F → BitVec 64} {ws : List (BitVec 64)}
    (h : WordsAt m p (members.map v ++ ws)) (f : F) :
    (Layout.ofWords members hall hw).get m p f = v f := by
  have hlt := List.idxOf_lt_length_of_mem (hall f)
  refine h.get ?_
  rw [List.getElem?_append_left (by rwa [List.length_map]), List.getElem?_map,
    List.getElem?_eq_getElem hlt, List.getElem_idxOf hlt, Option.map_some]

theorem wordsAt_of_forall {w : ℕ} {m : Mem w} {p : BitVec w}
    {vs : List (BitVec 64)}
    (h : ∀ i v, vs[i]? = some v → word m (p + BitVec.ofNat w (8 * i)) = v) :
    WordsAt m p vs := by
  induction vs generalizing p with
  | nil => trivial
  | cons v vs ih =>
      refine ⟨?_, ih fun i u hu => ?_⟩
      · have hhead := h 0 v rfl
        rwa [Nat.mul_zero, show BitVec.ofNat w 0 = 0#w from rfl,
          BitVec.add_zero] at hhead
      · rw [add_ofNat_add_ofNat, show 8 + 8 * i = 8 * (i + 1) by omega]
        exact h (i + 1) u hu

theorem wordsAt_of_get_ofWords {F : Type*} [DecidableEq F] {members : List F}
    {hall : ∀ f, f ∈ members} {hw : 8 * members.length ≤ 2 ^ 64} {m : Mem 64}
    {p : BitVec 64} {v : F → BitVec 64} (hnodup : members.Nodup)
    (h : ∀ f, (Layout.ofWords members hall hw).get m p f = v f) :
    WordsAt m p (members.map v) := by
  refine wordsAt_of_forall fun i u hu => ?_
  rw [List.getElem?_map, Option.map_eq_some_iff] at hu
  obtain ⟨f, hf, rfl⟩ := hu
  obtain ⟨hi, rfl⟩ := List.getElem?_eq_some_iff.1 hf
  rw [← h members[i], Layout.get, Layout.ofWords]
  simp only [hnodup.idxOf_getElem]
  rfl

end ByteMemory
