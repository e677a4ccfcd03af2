import Mathlib.Data.List.TakeWhile
import OsLab.A1.Proctree

/-!
# Reading `treeinfo.txt` (A1/proctree_21CS30009.c:61-93)

A record of the file is a city with the number of its children and their names. `readWord` tells a number from a name
by the first character, and a city from a child by what is still missing of the children announced.
`readCities`: the cities read are the records of the file, in their order; `readCities_spaced`: whatever white space
stands between the words.
-/

namespace OsLab.A1

open CString

/-- A record of the file. -/
structure City where
  name : Word
  children : List Word
deriving DecidableEq, Repr

namespace City

def words (c : City) : List Word := c.name :: decimal c.children.length :: c.children

/-- What is made of a record. -/
def node (c : City) : Node :=
  ⟨c.name, c.children.map some ++ List.replicate (maxChildren - c.children.length) none, c.children.length⟩

end City

/-- A word that is read as a name; as all strings of C it has no nul inside. -/
structure IsName (w : Word) : Prop where
  short : w.length < maxLine
  ne_nil : w ≠ []
  noSpace : ∀ c ∈ w, isSpace c = false
  noNul : ∀ c ∈ w, c ≠ nul
  noDigit : ∀ c ∈ w.head?, c.isDigit = false

theorem str_zero {w : Word} (h : ∀ c ∈ w, c ≠ nul) : str w 0 = w := by
  rw [str, List.drop_zero]
  exact List.takeWhile_eq_self_iff.2 fun c hc => decide_eq_true (h c hc)

theorem asInt_eq {z : Int} (h : -2 ^ 31 ≤ z) (h' : z < 2 ^ 31) : asInt z = some z := if_pos ⟨h, h'⟩

/-! ## One word -/

section
variable {r : Reader} {w : Word}

theorem IsName.not_digit (h : IsName w) : ¬ (w.headD nul).isDigit = true := by
  have hhead := h.noDigit
  cases w with
  | nil => exact absurd rfl h.ne_nil
  | cons c cs => simpa using hhead c rfl

theorem readWord_city (h : IsName w) (hi : r.iChildren = 0) (hroom : r.cities.length < maxCities) :
    readWord r w = some { r with cities := r.cities ++ [makeNode w], parentIndex := r.cities.length } := by
  unfold readWord
  dsimp only
  rw [if_neg (Nat.not_le.2 h.short), str_zero h.noNul, if_neg h.not_digit, if_pos hi, if_pos hroom]

theorem readWord_count {n : Nat} (hn : n ≤ maxChildren) :
    readWord r (decimal n) = some { r with iChildren := n, totalChildren := n } := by
  have hlength : (decimal n).length < maxLine := by
    have hall : ∀ n ≤ maxChildren, (decimal n).length < maxLine := by decide
    exact hall n hn
  have hdigit : ∀ c ∈ decimal n, c.isDigit := fun c hc => isDigit_of_mem hc
  have hstr : str (decimal n) 0 = decimal n := by
    refine str_zero fun c hc => ?_
    rintro rfl
    exact absurd (hdigit nul hc) (by decide)
  have hhead : ((decimal n).headD nul).isDigit = true := by
    obtain ⟨d, ds, hds⟩ := List.exists_cons_of_ne_nil (decimal_ne_nil n)
    rw [hds] at hdigit ⊢
    exact hdigit d List.mem_cons_self
  have hatoi : atoi (decimal n) = n := by
    have hle : (n : Int) ≤ 10 := by exact_mod_cast hn
    exact atoi_decimal_end (by omega) (by omega)
  unfold readWord
  dsimp only
  rw [if_neg (Nat.not_le.2 hlength), hstr, if_pos hhead, hatoi]

theorem readWord_child {parent : Node} {n i : Nat} (h : IsName w) (htotal : r.totalChildren = n)
    (hi : r.iChildren = (n : Int) - i) (hin : i < n) (hn : n ≤ maxChildren)
    (hparent : r.cities[r.parentIndex]? = some parent) :
    readWord r w = some
      { r with
        cities := r.cities.set r.parentIndex
          { parent with
            numChildren := if i = 0 then n else parent.numChildren
            children := parent.children.set i (some w) }
        iChildren := (n : Int) - (i + 1 : Nat) } := by
  have hmax : maxChildren = 10 := rfl
  have hslot : r.totalChildren - r.iChildren = i := by omega
  have hfirst : (n : Int) = r.iChildren ↔ i = 0 := by omega
  have hpred : r.iChildren - 1 = (n : Int) - (i + 1 : Nat) := by omega
  unfold readWord
  dsimp only
  rw [if_neg (Nat.not_le.2 h.short), str_zero h.noNul, if_neg h.not_digit, if_neg (by omega), hparent, Option.bind_some,
    hslot, if_pos (by omega), hpred, asInt_eq (by omega) (by omega), Option.map_some, Int.toNat_natCast]
  simp only [htotal, hfirst]

end

/-! ## The records -/

/-- The node of a city when the first `i` of its children have been read. -/
def City.nodeAt (c : City) (i : Nat) : Node :=
  ⟨c.name, (c.children.take i).map some ++ List.replicate (maxChildren - i) none, if i = 0 then 0 else c.children.length⟩

theorem City.nodeAt_zero (c : City) : c.nodeAt 0 = makeNode c.name := rfl

theorem City.nodeAt_length (c : City) : c.nodeAt c.children.length = c.node := by
  rw [nodeAt, node, List.take_length]
  congr 1
  split_ifs with h
  · rw [h]
    rfl
  · rfl

theorem City.nodeAt_succ {c : City} {i : Nat} (hi : i < c.children.length) (hmax : i < maxChildren) :
    { c.nodeAt i with
      numChildren := if i = 0 then c.children.length else (c.nodeAt i).numChildren
      children := (c.nodeAt i).children.set i (some c.children[i]) } = c.nodeAt (i + 1) := by
  have hlength : ((c.children.take i).map some).length = i := by
    rw [List.length_map, List.length_take, Nat.min_eq_left (Nat.le_of_lt hi)]
  obtain ⟨m, hm⟩ : ∃ m, maxChildren - i = m + 1 := ⟨maxChildren - i - 1, by omega⟩
  have hset : ((c.children.take i).map some ++ List.replicate (maxChildren - i) none).set i (some c.children[i]) =
      (c.children.take (i + 1)).map some ++ List.replicate (maxChildren - (i + 1)) none := by
    rw [List.set_append_right _ _ hlength.le, hlength, Nat.sub_self, hm, List.replicate_succ, List.set_cons_zero,
      List.take_succ_eq_append_getElem hi, List.map_append, List.append_assoc]
    have hm' : maxChildren - (i + 1) = m := by omega
    rw [hm']
    rfl
  have hcount : (if i = 0 then (c.children.length : Int) else if i = 0 then 0 else c.children.length) =
      if i + 1 = 0 then (0 : Int) else c.children.length := by
    rw [if_neg (Nat.succ_ne_zero i)]
    split_ifs <;> rfl
  simp only [nodeAt, hset, hcount]

/-- The children from the `i`-th on. -/
theorem readChildren {c : City} (hname : ∀ w ∈ c.children, IsName w) (hn : c.children.length ≤ maxChildren)
    (before : List Node) (m : Nat) : ∀ i, i + m = c.children.length →
    (c.children.drop i).foldlM readWord
        ⟨before ++ [c.nodeAt i], (c.children.length : Int) - i, c.children.length, before.length⟩ =
      some ⟨before ++ [c.node], 0, c.children.length, before.length⟩ := by
  induction m with
  | zero =>
    intro i hi
    obtain rfl : i = c.children.length := hi
    rw [List.drop_length, c.nodeAt_length, Int.sub_self]
    rfl
  | succ m ih =>
    intro i hi
    have hlt : i < c.children.length := by omega
    have hparent : (before ++ [c.nodeAt i])[before.length]? = some (c.nodeAt i) := by simp
    rw [List.drop_eq_getElem_cons hlt, List.foldlM_cons,
      readWord_child (hname _ (List.getElem_mem hlt)) rfl rfl hlt hn hparent]
    simp only [City.nodeAt_succ hlt (Nat.lt_of_lt_of_le hlt hn), List.set_append_right _ _ (Nat.le_refl _),
      Nat.sub_self, List.set_cons_zero, Option.bind_eq_bind, Option.bind_some]
    exact ih (i + 1) (by omega)

theorem readCity {c : City} {r : Reader} (hname : IsName c.name) (hchildren : ∀ w ∈ c.children, IsName w)
    (hn : c.children.length ≤ maxChildren) (hi : r.iChildren = 0) (hroom : r.cities.length < maxCities) :
    c.words.foldlM readWord r = some ⟨r.cities ++ [c.node], 0, c.children.length, r.cities.length⟩ := by
  have hrest := readChildren hchildren hn r.cities c.children.length 0 (Nat.zero_add _)
  rw [List.drop_zero, c.nodeAt_zero, Int.natCast_zero, Int.sub_zero] at hrest
  rw [City.words, List.foldlM_cons, readWord_city hname hi hroom, Option.bind_eq_bind, Option.bind_some,
    List.foldlM_cons, readWord_count hn, Option.bind_eq_bind, Option.bind_some]
  exact hrest

/-- **The cities read are the records**, in their order. -/
theorem readCities {cities : List City} (hname : ∀ c ∈ cities, IsName c.name)
    (hchildren : ∀ c ∈ cities, ∀ w ∈ c.children, IsName w) (hn : ∀ c ∈ cities, c.children.length ≤ maxChildren)
    (r : Reader) (hi : r.iChildren = 0) (hroom : r.cities.length + cities.length ≤ maxCities) :
    ∃ r', (cities.flatMap City.words).foldlM readWord r = some r' ∧ r'.iChildren = 0 ∧
      r'.cities = r.cities ++ cities.map City.node := by
  induction cities generalizing r with
  | nil => exact ⟨r, rfl, hi, by simp⟩
  | cons c cs ih =>
    rw [List.length_cons] at hroom
    have hc := readCity (hname c List.mem_cons_self) (hchildren c List.mem_cons_self) (hn c List.mem_cons_self) hi
      (by omega)
    obtain ⟨r', hr', hi', hcities⟩ := ih (fun d hd => hname d (List.mem_cons_of_mem c hd))
      (fun d hd => hchildren d (List.mem_cons_of_mem c hd)) (fun d hd => hn d (List.mem_cons_of_mem c hd))
      ⟨r.cities ++ [c.node], 0, c.children.length, r.cities.length⟩ rfl
      (by rw [List.length_append, List.length_singleton]; omega)
    refine ⟨r', ?_, hi', ?_⟩
    · rw [List.flatMap_cons, List.foldlM_append, hc]
      exact hr'
    · rw [hcities, List.append_assoc]
      rfl

/-! ## The words of the file -/

/-- The words one after the other, with any white space between them, in front of the first and behind the last. -/
inductive Spaced : List Word → List Char → Prop
  | nil {gap : List Char} : (∀ c ∈ gap, isSpace c = true) → Spaced [] gap
  | cons {gap w file : List Char} {ws : List Word} : (∀ c ∈ gap, isSpace c = true) →
      (∀ c ∈ file.head?, isSpace c = true) → Spaced ws file → Spaced (w :: ws) (gap ++ (w ++ file))

/-- A word that one `%s` reads. -/
def IsWord (w : Word) : Prop := w ≠ [] ∧ ∀ c ∈ w, isSpace c = false

theorem dropWhile_gap {gap s : List Char} (hgap : ∀ c ∈ gap, isSpace c = true) :
    (gap ++ s).dropWhile isSpace = s.dropWhile isSpace := by
  rw [List.dropWhile_append, List.dropWhile_eq_nil_iff.2 hgap]
  rfl

theorem fscanf_end {gap : List Char} (hgap : ∀ c ∈ gap, isSpace c = true) : fscanf gap = none := by
  rw [fscanf, List.dropWhile_eq_nil_iff.2 hgap]

theorem fscanf_word {gap w file : List Char} (hgap : ∀ c ∈ gap, isSpace c = true) (hw : IsWord w)
    (hfile : ∀ c ∈ file.head?, isSpace c = true) : fscanf (gap ++ (w ++ file)) = some (w, file) := by
  obtain ⟨hne, hw⟩ := hw
  have hstop : file.takeWhile (fun c => !isSpace c) = [] ∧ file.dropWhile (fun c => !isSpace c) = file := by
    cases file with
    | nil => exact ⟨rfl, rfl⟩
    | cons c cs =>
      have hc : ¬ (!isSpace c) = true := by simp [hfile c rfl]
      exact ⟨List.takeWhile_cons_of_neg hc, List.dropWhile_cons_of_neg hc⟩
  have hall : ∀ c ∈ w, (!isSpace c) = true := fun c hc => by rw [hw c hc]; rfl
  have htake : (w ++ file).takeWhile (fun c => !isSpace c) = w := by
    rw [List.takeWhile_append_of_pos hall, hstop.1, List.append_nil]
  have hdrop : (w ++ file).dropWhile (fun c => !isSpace c) = file := by
    rw [List.dropWhile_append_of_pos hall, hstop.2]
  obtain ⟨c, cs, rfl⟩ := List.exists_cons_of_ne_nil hne
  have hstart : (gap ++ (c :: cs ++ file)).dropWhile isSpace = c :: (cs ++ file) := by
    rw [dropWhile_gap hgap, List.cons_append, List.dropWhile_cons_of_neg (by rw [hw c List.mem_cons_self]; decide)]
  rw [List.cons_append] at htake hdrop
  rw [fscanf, hstart]
  simp only [htake, hdrop]

/-- `fscanf` finds the words, whatever white space there is. -/
theorem Spaced.words_eq {ws : List Word} {file : List Char} (h : Spaced ws file) (hws : ∀ w ∈ ws, IsWord w) :
    words file = ws := by
  induction h with
  | nil hgap =>
    rw [A1.words_eq, fscanf_end hgap]
    rfl
  | cons hgap hfile _ ih =>
    rw [A1.words_eq, fscanf_word hgap (hws _ List.mem_cons_self) hfile, Option.elim_some,
      ih fun w hw => hws w (List.mem_cons_of_mem _ hw)]

theorem IsName.letter {l : Char} (hspace : isSpace l = false) (hnul : l ≠ nul) (hdigit : l.isDigit = false) : IsName [l] := by
  refine ⟨show 1 < maxLine by decide, List.cons_ne_nil l [], ?_, ?_, ?_⟩
  · simpa using hspace
  · simpa using hnul
  · simpa using hdigit

theorem IsName.isWord {w : Word} (h : IsName w) : IsWord w := ⟨h.ne_nil, h.noSpace⟩

theorem City.isWord {c : City} (hnames : ∀ w ∈ c.name :: c.children, IsName w) : ∀ w ∈ c.words, IsWord w := by
  intro w hw
  rw [City.words, List.mem_cons, List.mem_cons] at hw
  rcases hw with rfl | rfl | hw
  · exact (hnames _ List.mem_cons_self).isWord
  · exact ⟨decimal_ne_nil _, fun d hd => isSpace_of_isDigit (isDigit_of_mem hd)⟩
  · exact (hnames w (List.mem_cons_of_mem _ hw)).isWord

/-- **The loop recovers the adjacency list**: behind `EOF` the cities are the records that the file has been written
from, each with its children, in their order. -/
theorem readCities_spaced {cities : List City} (hfew : cities.length ≤ maxCities)
    (hnarrow : ∀ c ∈ cities, c.children.length ≤ maxChildren) (hnames : ∀ c ∈ cities, ∀ w ∈ c.name :: c.children, IsName w)
    {file : List Char} (hfile : Spaced (cities.flatMap City.words) file) :
    ∃ r, (words file).foldlM readWord .init = some r ∧ r.cities = cities.map City.node := by
  have hwords : words file = cities.flatMap City.words := by
    refine hfile.words_eq fun w hw => ?_
    obtain ⟨c, hc, hw⟩ := List.mem_flatMap.1 hw
    exact City.isWord (hnames c hc) w hw
  obtain ⟨r, hr, -, hcities⟩ := readCities (fun c hc => hnames c hc _ List.mem_cons_self)
    (fun c hc w hw => hnames c hc w (List.mem_cons_of_mem _ hw)) hnarrow .init rfl
    (by rw [Reader.init, List.length_nil, Nat.zero_add]; exact hfew)
  exact ⟨r, by rw [hwords]; exact hr, by rw [hcities]; rfl⟩

theorem readCities_spaced_two :
    ∃ r, (words ['A', ' ', '1', ' ', 'B', '\n', '\t', 'B', ' ', '0']).foldlM readWord .init = some r ∧
      r.cities = [City.node ⟨['A'], [['B']]⟩, City.node ⟨['B'], []⟩] := by
  have hA : IsName ['A'] := .letter rfl (by decide) rfl
  have hB : IsName ['B'] := .letter rfl (by decide) rfl
  have hfile : Spaced [['A'], ['1'], ['B'], ['B'], ['0']]
      ([] ++ (['A'] ++ ([' '] ++ (['1'] ++ ([' '] ++ (['B'] ++ (['\n', '\t'] ++ (['B'] ++ ([' '] ++ (['0'] ++ [])))))))))) :=
    .cons (by simp) (by simp [isSpace]) (.cons (by simp [isSpace]) (by simp [isSpace]) (.cons (by simp [isSpace])
      (by simp [isSpace]) (.cons (by simp [isSpace]) (by simp [isSpace]) (.cons (by simp [isSpace]) (by simp)
        (.nil (by simp))))))
  have hnames : ∀ c ∈ [City.mk ['A'] [['B']], City.mk ['B'] []], ∀ w ∈ c.name :: c.children, IsName w := by
    simp [hA, hB]
  exact readCities_spaced (by decide) (by decide) hnames hfile

end OsLab.A1
