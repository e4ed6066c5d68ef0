import Mathlib.Algebra.GroupWithZero.Nat
import Mathlib.Data.List.Basic
import Mathlib.Data.List.Infix

/-!
# LIKE with deterministic collations

`MatchText` compares bytes and goes by characters only at wildcards. `LIKE_ABORT` stops the scan of
an enclosing `%`: no later place of the text can match either.
-/

namespace Umbra.MatchText

/-- The characters of an encoding, none of which begins another, and `pg_mblen` or what stands for
it in `NextChar`. -/
structure Encoding where
  IsChar : List UInt8 → Prop
  mblen : List UInt8 → ℕ
  mblen_pos : ∀ s, 0 < mblen s
  exists_cons : ∀ {c}, IsChar c → ∃ b s, c = b :: s
  eq_of_isPrefix : ∀ {c d}, IsChar c → IsChar d → c <+: d → c = d
  ascii : ∀ {c b}, IsChar c → b ∈ c → b < 0x80 → c = [b]
  mblen_eq : ∀ {c} {cs : List (List UInt8)}, IsChar c → (∀ d ∈ cs, IsChar d) →
    mblen (c ++ cs.flatten) = c.length

def percent : UInt8 := 0x25

def underscore : UInt8 := 0x5F

def backslash : UInt8 := 0x5C

inductive Like
  | true
  | false
  | abort
  deriving DecidableEq

variable (E : Encoding)

def nextChar (t : List UInt8) : List UInt8 := t.drop (E.mblen t)

/-- `none` is the error of an escape at the end, here and below. -/
def firstpat : List UInt8 → Option UInt8
  | [] => none
  | q :: p => if q = backslash then p.head? else some q

def scan (matchRest : List UInt8 → Option Like) (first : UInt8) : List UInt8 → Option Like
  | [] => some .abort
  | b :: t =>
    if b = first then
      match matchRest (b :: t) with
      | some .false => scan matchRest first (nextChar E (b :: t))
      | matched => matched
    else scan matchRest first (nextChar E (b :: t))
termination_by t => t.length
decreasing_by
  all_goals
    rw [nextChar, List.length_drop]
    exact Nat.sub_lt (Nat.succ_pos _) (E.mblen_pos _)

/-- The end of the text: the rest of the pattern has to be `%`s. -/
def ended (p : List UInt8) : Like :=
  if p.dropWhile (· = percent) = [] then .true else .abort

mutual

def matchText (t p : List UInt8) : Option Like :=
  if p = [percent] then some .true else loop t p
termination_by (p.length, 1)

def loop (t p : List UInt8) : Option Like :=
  match t, p with
  | [], p => some (ended p)
  | _ :: _, [] => some .false
  | b :: t, q :: p =>
    if q = backslash then
      match p with
      | [] => none
      | q :: p => if q = b then loop t p else some .false
    else if q = percent then afterPercent (b :: t) p
    else if q = underscore then loop (nextChar E (b :: t)) p
    else if q = b then loop t p
    else some .false
termination_by (p.length, 0)

/-- The wildcards behind a `%`, and then the search for a place where the rest matches. -/
def afterPercent (t p : List UInt8) : Option Like :=
  match p with
  | [] => some .true
  | q :: p =>
    if q = percent then afterPercent t p
    else if q = underscore then if t = [] then some .abort else afterPercent (nextChar E t) p
    else (firstpat (q :: p)).bind fun first => scan E (matchText · (q :: p)) first t
termination_by (p.length, 2)

end

/-! ### What a pattern means -/

inductive Token
  | any
  | one
  | char (c : List UInt8)

def token (c : List UInt8) : Token :=
  if c = [percent] then .any else if c = [underscore] then .one else .char c

/-- `none` if the pattern ends in an unpaired escape. -/
def tokens : List (List UInt8) → Option (List Token)
  | [] => some []
  | c :: p =>
    if c = [backslash] then
      match p with
      | [] => none
      | c :: p => (tokens p).map (.char c :: ·)
    else (tokens p).map (token c :: ·)

def Matches : List Token → List (List UInt8) → Prop
  | [], t => t = []
  | .any :: ts, t => ∃ u, u <:+ t ∧ Matches ts u
  | .one :: ts, t => ∃ c u, t = c :: u ∧ Matches ts u
  | .char c :: ts, t => ∃ u, t = c :: u ∧ Matches ts u

/-- The answer for the whole text, and what `LIKE_ABORT` says about its suffixes. -/
def Exact (ts : List Token) (t : List (List UInt8)) (r : Option Like) : Prop :=
  ∃ matched, r = some matched ∧ (matched = .true ↔ Matches ts t) ∧
    (matched = .abort → ∀ u, u <:+ t → ¬ Matches ts u)

def Plain (b : UInt8) : Prop := b ≠ backslash ∧ b ≠ percent ∧ b ≠ underscore

/-- A pattern and its tokens. The character of a `char` may be escaped. -/
inductive Parsed : List (List UInt8) → List Token → Prop
  | nil : Parsed [] []
  | any {p ts} (h : Parsed p ts) : Parsed ([percent] :: p) (.any :: ts)
  | one {p ts} (h : Parsed p ts) : Parsed ([underscore] :: p) (.one :: ts)
  | char {esc p x xs ts} (hesc : esc = [] ∧ Plain x ∨ esc = [[backslash]]) (hc : E.IsChar (x :: xs))
      (h : Parsed p ts) : Parsed (esc ++ (x :: xs) :: p) (.char (x :: xs) :: ts)

variable {E} {ts us : List Token} {t u p esc : List (List UInt8)} {d xs ys : List UInt8}
  {x y : UInt8} {r : Option Like} {a : Token}

lemma matches_any_cons : Matches (.any :: ts) (d :: t) ↔
    Matches ts (d :: t) ∨ Matches (.any :: ts) t := by
  constructor
  · rintro ⟨u, hu, hm⟩
    rcases List.suffix_cons_iff.mp hu with rfl | hu
    · exact .inl hm
    · exact .inr ⟨u, hu, hm⟩
  · rintro (hm | ⟨u, hu, hm⟩)
    · exact ⟨_, List.suffix_rfl, hm⟩
    · exact ⟨u, hu.trans (List.suffix_cons ..), hm⟩

lemma Matches.any_of_suffix (h : Matches (.any :: ts) u) (hu : u <:+ t) :
    Matches (.any :: ts) t := by
  obtain ⟨v, hv, hm⟩ := h
  exact ⟨v, hv.trans hu, hm⟩

lemma matches_any_any : Matches (.any :: .any :: ts) t ↔ Matches (.any :: ts) t := by
  constructor
  · rintro ⟨u, hu, hm⟩
    exact hm.any_of_suffix hu
  · exact fun hm => ⟨t, List.suffix_rfl, hm⟩

lemma tail_suffix {c} (h : c :: u <:+ d :: t) : u <:+ t := by
  rcases List.suffix_cons_iff.mp h with heq | h
  · cases heq
    exact List.suffix_rfl
  · exact (List.suffix_cons ..).trans h

lemma matches_any_one : Matches (.any :: .one :: ts) (d :: t) ↔ Matches (.any :: ts) t := by
  constructor
  · rintro ⟨u, hu, c, v, rfl, hm⟩
    exact ⟨v, tail_suffix hu, hm⟩
  · rintro ⟨u, ⟨s, rfl⟩, hm⟩
    -- The last character in front of `u` is the one for `_`.
    obtain ⟨l, c, hlast⟩ := (List.eq_nil_or_concat' (d :: s)).resolve_left (List.cons_ne_nil _ _)
    refine ⟨c :: u, ⟨l, ?_⟩, c, u, rfl, hm⟩
    rw [← List.cons_append, hlast, List.append_assoc]
    rfl

lemma not_matches_nil (h : a ≠ .any) : ¬ Matches (a :: ts) [] := by
  cases a with
  | any => exact absurd rfl h
  | one => rintro ⟨_, _, heq, -⟩; cases heq
  | char => rintro ⟨_, heq, -⟩; cases heq

lemma not_matches_any_nil (h : a ≠ .any) : ¬ Matches (.any :: a :: ts) [] := by
  rintro ⟨u, hu, hm⟩
  cases List.suffix_nil.mp hu
  exact not_matches_nil h hm

namespace Exact

lemma any_abort (h : ¬ Matches (.any :: ts) t) : Exact (.any :: ts) t (some .abort) :=
  ⟨.abort, rfl, iff_of_false nofun h, fun _ _ hu hm => h (hm.any_of_suffix hu)⟩

lemma any_congr (h : Exact (.any :: us) u r)
    (hiff : Matches (.any :: ts) t ↔ Matches (.any :: us) u) : Exact (.any :: ts) t r := by
  obtain ⟨matched, rfl, htrue, habort⟩ := h
  refine ⟨matched, rfl, htrue.trans hiff.symm, fun ha v hv hm => ?_⟩
  exact habort ha u List.suffix_rfl (hiff.mp (hm.any_of_suffix hv))

lemma nil_abort (h : a ≠ .any) : Exact (a :: ts) [] (some .abort) := by
  refine ⟨.abort, rfl, iff_of_false nofun (not_matches_nil h), fun _ u hu => ?_⟩
  exact List.suffix_nil.mp hu ▸ not_matches_nil h

/-- A token for one character. -/
lemma cons (h : Exact ts t r) (hd : ∀ {u}, Matches ts u → Matches (a :: ts) (d :: u))
    (ha : ∀ {u}, Matches (a :: ts) u → ∃ c v, u = c :: v ∧ Matches ts v) :
    Exact (a :: ts) (d :: t) r := by
  obtain ⟨matched, rfl, htrue, habort⟩ := h
  refine ⟨matched, rfl, htrue.trans ⟨hd, fun hm => ?_⟩, fun heq u hu hm => ?_⟩
  · obtain ⟨_, _, heq, hv⟩ := ha hm
    cases heq
    exact hv
  · obtain ⟨c, v, rfl, hv⟩ := ha hm
    exact habort heq v (tail_suffix hu) hv

end Exact

/-! ### Bytes and characters -/

lemma nextChar_flatten (hd : E.IsChar d) (ht : ∀ c ∈ t, E.IsChar c) :
    nextChar E (d :: t).flatten = t.flatten := by
  rw [nextChar, List.flatten_cons, E.mblen_eq hd ht, List.drop_left]

lemma loop_percent (b t p) : loop E (b :: t) (percent :: p) = afterPercent E (b :: t) p := by
  rw [loop.eq_def]
  rfl

lemma matchText_eq_loop (t p) : matchText E t p = loop E t p := by
  rw [matchText]
  split_ifs with hp
  · cases t with
    | nil => rw [hp, loop.eq_def]; rfl
    | cons => rw [hp, loop_percent, afterPercent.eq_def]
  · rfl

lemma loop_plain {b q t p} (hq : Plain q) :
    loop E (b :: t) (q :: p) = if q = b then loop E t p else some .false := by
  rw [loop.eq_def]
  dsimp only
  rw [if_neg hq.1, if_neg hq.2.1, if_neg hq.2.2]

lemma loop_append {s} (hs : ∀ b ∈ s, Plain b) (t p) : loop E (s ++ t) (s ++ p) = loop E t p := by
  induction s with
  | nil => rfl
  | cons b s ih =>
    obtain ⟨hb, hs⟩ := List.forall_mem_cons.mp hs
    rw [List.cons_append, List.cons_append, loop_plain hb, if_pos rfl, ih hs]

lemma loop_eq_false {s t} (hs : ∀ b ∈ s, Plain b) (hst : ¬ s <+: t) (hts : ¬ t <+: s) (p) :
    loop E t (s ++ p) = some .false := by
  induction s generalizing t with
  | nil => exact absurd List.nil_prefix hst
  | cons b s ih =>
    cases t with
    | nil => exact absurd List.nil_prefix hts
    | cons a t =>
      obtain ⟨hb, hs⟩ := List.forall_mem_cons.mp hs
      rw [List.cons_append, loop_plain hb]
      split_ifs with heq
      · subst heq
        rw [List.cons_prefix_cons] at hst hts
        exact ih hs (fun h => hst ⟨rfl, h⟩) fun h => hts ⟨rfl, h⟩
      · rfl

lemma plain_of_mem_tail (hc : E.IsChar (x :: xs)) : ∀ b ∈ xs, Plain b := by
  intro b hb
  have hascii : ¬ b < 0x80 := by
    intro hlt
    have heq := E.ascii hc (List.mem_cons_of_mem _ hb) hlt
    rw [(List.cons.inj heq).2] at hb
    cases hb
  refine ⟨?_, ?_, ?_⟩ <;> rintro rfl <;> exact hascii (by decide)

/-- Behind its first byte a character of the pattern is compared byte by byte. -/
lemma loop_char (hc : E.IsChar (x :: xs)) (hd : E.IsChar (y :: ys)) (t p : List UInt8) :
    (if x = y then loop E (ys ++ t) (xs ++ p) else some .false) =
      if x :: xs = y :: ys then loop E t p else some .false := by
  split_ifs with hx heq heq
  · cases heq
    exact loop_append (plain_of_mem_tail hc) t p
  · subst hx
    have hys : ys <+: ys ++ t := List.prefix_append ys t
    have hnot : ¬ ys <+: xs := fun h =>
      heq (E.eq_of_isPrefix hd hc (List.cons_prefix_cons.mpr ⟨rfl, h⟩)).symm
    refine loop_eq_false (plain_of_mem_tail hc) (fun h => ?_) (fun h => hnot (hys.trans h)) p
    have hxs : xs <+: ys := (List.prefix_or_prefix_of_prefix h hys).resolve_right hnot
    exact heq (E.eq_of_isPrefix hc hd (List.cons_prefix_cons.mpr ⟨rfl, hxs⟩))
  · exact absurd (List.cons.inj heq).1 hx
  · rfl

lemma parsed_of_tokens (hp : ∀ c ∈ p, E.IsChar c) (h : tokens p = some ts) : Parsed E p ts := by
  fun_induction tokens p generalizing ts with
  | case1 => cases h; exact .nil
  | case2 => cases h
  | case3 c p ih =>
    obtain ⟨hc, hrest⟩ := List.forall_mem_cons.mp (List.forall_mem_cons.mp hp).2
    obtain ⟨ts, hts, rfl⟩ := Option.map_eq_some_iff.mp h
    obtain ⟨x, xs, rfl⟩ := E.exists_cons hc
    exact .char (.inr rfl) hc (ih hrest hts)
  | case4 c p hesc ih =>
    obtain ⟨hc, hrest⟩ := List.forall_mem_cons.mp hp
    obtain ⟨ts, hts, rfl⟩ := Option.map_eq_some_iff.mp h
    rw [token]
    split_ifs with hany hone
    · exact hany ▸ .any (ih hrest hts)
    · exact hone ▸ .one (ih hrest hts)
    · obtain ⟨x, xs, rfl⟩ := E.exists_cons hc
      refine .char (.inl ⟨rfl, ?_⟩) hc (ih hrest hts)
      refine ⟨?_, ?_, ?_⟩ <;> rintro rfl
      · exact hesc (E.ascii hc List.mem_cons_self (by decide))
      · exact hany (E.ascii hc List.mem_cons_self (by decide))
      · exact hone (E.ascii hc List.mem_cons_self (by decide))

/-! ### The search -/

lemma Parsed.ended (h : Parsed E p ts) : Exact ts [] (some (ended p.flatten)) := by
  induction h with
  | nil => exact ⟨.true, rfl, by simp [Matches], nofun⟩
  | @any p ts h ih =>
    have hiff : Matches (.any :: ts) [] ↔ Matches ts [] := by simp [Matches]
    obtain ⟨matched, heq, htrue, habort⟩ := ih
    refine ⟨matched, heq, htrue.trans hiff.symm, fun ha u hu hm => ?_⟩
    cases List.suffix_nil.mp hu
    exact habort ha [] hu (hiff.mp hm)
  | one h => exact .nil_abort nofun
  | char hesc hc h =>
    rcases hesc with ⟨rfl, hx⟩ | rfl
    · rw [MatchText.ended, if_neg (by simp [hx.2.1])]
      exact .nil_abort nofun
    · exact .nil_abort nofun

lemma scan_exact {matchRest} (ht : ∀ c ∈ t, E.IsChar c)
    (hrest : ∀ {u : List (List UInt8)}, (∀ c ∈ u, E.IsChar c) → Exact (.char (x :: xs) :: ts) u
      (matchRest u.flatten)) :
    Exact (.any :: .char (x :: xs) :: ts) t (scan E matchRest x t.flatten) := by
  induction t with
  | nil =>
    rw [List.flatten_nil, scan]
    exact .any_abort (not_matches_any_nil nofun)
  | cons d t ih =>
    have hhere := hrest ht
    obtain ⟨hd, ht⟩ := List.forall_mem_cons.mp ht
    have hnext : ¬ Matches (.char (x :: xs) :: ts) (d :: t) →
        Exact (.any :: .char (x :: xs) :: ts) (d :: t)
          (scan E matchRest x (nextChar E (d :: t).flatten)) := by
      intro hnot
      rw [nextChar_flatten hd ht]
      exact (ih ht).any_congr (matches_any_cons.trans (or_iff_right hnot))
    obtain ⟨y, ys, rfl⟩ := E.exists_cons hd
    rw [List.flatten_cons, List.cons_append] at hhere hnext ⊢
    rw [scan]
    split_ifs with hxy
    · obtain ⟨matched, heq, htrue, habort⟩ := hhere
      rw [heq]
      cases matched with
      | true => exact ⟨.true, rfl, iff_of_true rfl ⟨_, List.suffix_rfl, htrue.mp rfl⟩, nofun⟩
      | false => exact hnext fun hm => absurd (htrue.mpr hm) nofun
      | abort => exact .any_abort fun ⟨u, hu, hm⟩ => habort rfl u hu hm
    · refine hnext ?_
      rintro ⟨u, heq, -⟩
      cases heq
      exact hxy rfl

lemma Parsed.loop_char (hesc : esc = [] ∧ Plain x ∨ esc = [[backslash]])
    (hc : E.IsChar (x :: xs)) (hp : Parsed E p ts)
    (hrest : ∀ {t}, (∀ c ∈ t, E.IsChar c) → Exact ts t (loop E t.flatten p.flatten))
    (ht : ∀ c ∈ t, E.IsChar c) :
    Exact (.char (x :: xs) :: ts) t (loop E t.flatten (esc ++ (x :: xs) :: p).flatten) := by
  cases t with
  | nil =>
    rw [List.flatten_nil, loop.eq_def]
    exact (Parsed.char hesc hc hp).ended
  | cons d t =>
    obtain ⟨hd, htail⟩ := List.forall_mem_cons.mp ht
    obtain ⟨y, ys, rfl⟩ := E.exists_cons hd
    have hstep : loop E ((y :: ys) :: t).flatten (esc ++ (x :: xs) :: p).flatten =
        if x = y then loop E (ys ++ t.flatten) (xs ++ p.flatten) else some .false := by
      rcases hesc with ⟨rfl, hx⟩ | rfl
      · exact loop_plain hx
      · rw [loop.eq_def]
        rfl
    rw [hstep, MatchText.loop_char hc hd]
    split_ifs with heq
    · rw [heq]
      exact (hrest htail).cons (a := .char (y :: ys)) (fun hm => ⟨_, rfl, hm⟩)
        fun ⟨u, h, hm⟩ => ⟨_, u, h, hm⟩
    · refine ⟨.false, rfl, iff_of_false nofun ?_, nofun⟩
      rintro ⟨u, h, -⟩
      exact heq (List.cons.inj h).1.symm

lemma Parsed.exact (hp : Parsed E p ts) (ht : ∀ c ∈ t, E.IsChar c) :
    Exact ts t (loop E t.flatten p.flatten) ∧
      Exact (.any :: ts) t (afterPercent E t.flatten p.flatten) := by
  induction hp generalizing t with
  | nil =>
    have htrue : Exact [.any] t (some .true) :=
      ⟨.true, rfl, iff_of_true rfl ⟨[], List.nil_suffix, rfl⟩, nofun⟩
    rw [List.flatten_nil, afterPercent.eq_def]
    refine ⟨?_, htrue⟩
    cases t with
    | nil =>
      rw [List.flatten_nil, loop.eq_def]
      exact (Parsed.nil (E := E)).ended
    | cons d t =>
      obtain ⟨y, ys, rfl⟩ := E.exists_cons (ht d List.mem_cons_self)
      rw [List.flatten_cons, List.cons_append, loop.eq_def]
      exact ⟨.false, rfl, iff_of_false nofun (List.cons_ne_nil _ _), nofun⟩
  | @any p ts hp ih =>
    have hafter : afterPercent E t.flatten ([percent] :: p).flatten =
        afterPercent E t.flatten p.flatten := by
      rw [afterPercent.eq_def]
      rfl
    refine ⟨?_, hafter ▸ (ih ht).2.any_congr matches_any_any⟩
    cases t with
    | nil =>
      rw [List.flatten_nil, loop.eq_def]
      exact hp.any.ended
    | cons d t =>
      have hall := (ih ht).2
      obtain ⟨y, ys, rfl⟩ := E.exists_cons (ht d List.mem_cons_self)
      exact (loop_percent y ..).symm ▸ hall
  | @one p ts hp ih =>
    cases t with
    | nil =>
      rw [List.flatten_nil, loop.eq_def, afterPercent.eq_def]
      exact ⟨hp.one.ended, .any_abort (not_matches_any_nil nofun)⟩
    | cons d t =>
      obtain ⟨hd, htail⟩ := List.forall_mem_cons.mp ht
      have hnext := nextChar_flatten hd htail
      obtain ⟨y, ys, rfl⟩ := E.exists_cons hd
      have hafter : afterPercent E ((y :: ys) :: t).flatten ([underscore] :: p).flatten =
          afterPercent E t.flatten p.flatten := by
        rw [afterPercent.eq_def, ← hnext]
        rfl
      have hloop : loop E ((y :: ys) :: t).flatten ([underscore] :: p).flatten =
          loop E t.flatten p.flatten := by
        rw [← hnext, loop.eq_def]
        rfl
      rw [hloop, hafter]
      exact ⟨(ih htail).1.cons (a := .one) (fun hm => ⟨_, _, rfl, hm⟩) id,
        (ih htail).2.any_congr matches_any_one⟩
  | @char esc p x xs ts hesc hc hp ih =>
    have hloop {t : List (List UInt8)} (ht : ∀ c ∈ t, E.IsChar c) :=
      hp.loop_char hesc hc (fun ht => (ih ht).1) ht
    refine ⟨hloop ht, ?_⟩
    have hafter : afterPercent E t.flatten (esc ++ (x :: xs) :: p).flatten =
        scan E (matchText E · (esc ++ (x :: xs) :: p).flatten) x t.flatten := by
      rw [afterPercent.eq_def]
      rcases hesc with ⟨rfl, hx⟩ | rfl
      · dsimp [firstpat]
        rw [if_neg hx.2.1, if_neg hx.2.2, if_neg hx.1]
        rfl
      · rfl
    rw [hafter]
    refine scan_exact ht fun hu => ?_
    rw [matchText_eq_loop]
    exact hloop hu

/-- `MatchText` says whether the text matches the pattern, and aborts only if no suffix does. -/
theorem matchText_exact (E : Encoding) {t p : List (List UInt8)} {ts : List Token}
    (ht : ∀ c ∈ t, E.IsChar c) (hp : ∀ c ∈ p, E.IsChar c) (hts : tokens p = some ts) :
    ∃ matched, matchText E t.flatten p.flatten = some matched ∧
      (matched = .true ↔ Matches ts t) ∧
      (matched = .abort → ∀ u, u <:+ t → ¬ Matches ts u) := by
  rw [matchText_eq_loop]
  exact ((parsed_of_tokens hp hts).exact ht).1

/-- `EUC_KR`: the bytes of a multibyte character have their high bit set. -/
def eucKr : Encoding where
  IsChar c := (∃ a, a < 0x80 ∧ c = [a]) ∨ ∃ a b, 0x80 ≤ a ∧ 0x80 ≤ b ∧ c = [a, b]
  mblen s := if s.head?.all (· < 0x80) then 1 else 2
  mblen_pos s := by split <;> decide
  exists_cons := by
    rintro c (⟨a, -, rfl⟩ | ⟨a, b, -, -, rfl⟩)
    · exact ⟨a, [], rfl⟩
    · exact ⟨a, [b], rfl⟩
  eq_of_isPrefix := by
    rintro c d (⟨a, ha, rfl⟩ | ⟨a, b, ha, hb, rfl⟩) (⟨a', ha', rfl⟩ | ⟨a', b', ha', hb', rfl⟩) h
    all_goals grind
  ascii := by
    rintro c b (⟨a, ha, rfl⟩ | ⟨a, a', ha, ha', rfl⟩) hb hlt
    all_goals grind
  mblen_eq := by
    rintro c cs (⟨a, ha, rfl⟩ | ⟨a, b, ha, hb, rfl⟩) -
    all_goals simp_all

theorem matchText_exact_eucKr : matchText eucKr [0x61, 0xB0, 0xA1, percent]
    [percent, underscore, backslash, percent] = some .true := by
  obtain ⟨matched, hmatched, htrue, -⟩ := matchText_exact eucKr
    (t := [[0x61], [0xB0, 0xA1], [percent]])
    (p := [[percent], [underscore], [backslash], [percent]]) (by simp [eucKr, percent])
    (by simp [eucKr, percent, underscore, backslash]) rfl
  rw [htrue.mpr ⟨_, ⟨[[0x61]], rfl⟩, _, _, rfl, _, rfl, rfl⟩] at hmatched
  exact hmatched

end Umbra.MatchText
