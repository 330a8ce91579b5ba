import MoldMacho.Util.Glob.Pattern

/-!
# Matching a pattern

The scan of a string for one pattern. It keeps one place to go back to, that of the
last star: once the scan gets to a star, what an earlier one could still take, the
new one can.
-/

set_option autoImplicit false

namespace MoldMacho.Globs
open MoldMacho.Wildcards

/-! ## The scan -/

/-- Where `needle` is first found. -/
def find (needle : List UInt8) : List UInt8 → Option ℕ
  | [] => if needle = [] then some 0 else none
  | c::s => if needle.isPrefixOf (c::s) then some 0 else (find needle s).map (·+1)

/-- A place in the string, one in the tokens, and the place to try next. -/
structure Scan where
  x : ℕ
  y : ℕ
  next : Option (ℕ × ℕ)

/-- What the token at hand does with the scan. -/
inductive Turn where
  | go (scan : Scan)
  | stop
  | retry

section Loop
variable (tokens : List Token) (s : List UInt8)

def turn (scan : Scan) : Turn :=
  match tokens[scan.y]? with
  | some (.str literal) =>
    if literal.isPrefixOf (s.drop scan.x) then
      .go { scan with x := scan.x+literal.length, y := scan.y+1 }
    else .retry
  | some .star =>
    match tokens[scan.y+1]? with
    | some (.str literal) =>
      -- The star takes all up to the literal at once.
      match find literal (s.drop scan.x) with
      | some pos =>
        .go ⟨scan.x+pos+literal.length,scan.y+2,some (scan.x+pos+1,scan.y)⟩
      | none => .stop
    | _ => .go ⟨scan.x,scan.y+1,some (scan.x+1,scan.y)⟩
  | some .question =>
    if scan.x < s.length then .go { scan with x := scan.x+1, y := scan.y+1 } else .retry
  | some (.bracket chars) =>
    if s[scan.x]?.any chars then .go { scan with x := scan.x+1, y := scan.y+1 } else .retry
  | none => .retry

def step (scan : Scan) : Bool ⊕ Scan :=
  if scan.x < s.length ∨ scan.y < tokens.length then
    match turn tokens s scan with
    | .go scan => .inr scan
    | .stop => .inl false
    | .retry =>
      match scan.next with
      | some (x,y) => if x ≤ s.length then .inr { scan with x, y } else .inl false
      | none => .inl false
  else .inl true

def run : ℕ → Scan → Option Bool
  | 0, _ => none
  | fuel+1, scan =>
    match step tokens s scan with
    | .inl result => some result
    | .inr scan => run fuel scan

/-- What is left to try of the last star. -/
def starsLeft : Option (ℕ × ℕ) → ℕ
  | none => (tokens.length+1)*(s.length+2)
  | some (x,y) => (tokens.length-y)*(s.length+2) + (s.length+2-x)

/-- How many steps are left at most. -/
def stepsLeft (scan : Scan) : ℕ :=
  starsLeft tokens s scan.next*(tokens.length+3) +
    if scan.next.map Prod.snd = some scan.y then 0 else tokens.length+2-scan.y

def start : Scan := ⟨0,0,none⟩

end Loop

/-- The string does not end as the pattern does. -/
def endsApart (tokens : List Token) (s : List UInt8) : Bool :=
  match tokens.getLast? with
  | some (.str suffix) => !suffix.isSuffixOf s
  | _ => false

def Pattern.matches (p : Pattern) (s : List UInt8) : Bool :=
  if endsApart p.tokens s then false
  else (run p.tokens s (stepsLeft p.tokens s start+1) start).getD false

/-! ## Finding a literal -/

theorem find_some {needle s : List UInt8} {pos : ℕ} (h : find needle s = some pos) :
    needle <+: s.drop pos ∧ pos ≤ s.length ∧ ∀ i < pos, ¬needle <+: s.drop i := by
  induction s generalizing pos with
  | nil =>
    rw [find] at h
    split at h
    · next hneedle =>
      obtain rfl := Option.some.inj h
      simp [hneedle]
    · cases h
  | cons c s ih =>
    rw [find] at h
    split at h
    · next hstart =>
      obtain rfl := Option.some.inj h
      exact ⟨List.isPrefixOf_iff_prefix.1 hstart,Nat.zero_le _,by simp⟩
    · next hstart =>
      obtain ⟨pos,hpos,rfl⟩ := Option.map_eq_some_iff.1 h
      obtain ⟨hfound,hle,hfirst⟩ := ih hpos
      refine ⟨hfound,Nat.succ_le_succ hle,?_⟩
      intro i hi
      cases i with
      | zero => exact fun h => hstart (List.isPrefixOf_iff_prefix.2 h)
      | succ i => exact hfirst i (Nat.lt_of_succ_lt_succ hi)

theorem find_none {needle s : List UInt8} (h : find needle s = none) {t : List UInt8}
    (ht : t <:+ s) : ¬needle <+: t := by
  induction s with
  | nil =>
    rw [find] at h
    split at h
    · cases h
    · next hneedle =>
      obtain rfl := List.suffix_nil.1 ht
      simpa using hneedle
  | cons c s ih =>
    rw [find] at h
    split at h
    · cases h
    · next hstart =>
      rcases List.suffix_cons_iff.1 ht with rfl | ht
      · exact fun h => hstart (List.isPrefixOf_iff_prefix.2 h)
      · exact ih (Option.map_eq_none_iff.1 h) ht

/-! ## What the scan has left to match -/

section Scanning
variable {tokens : List Token} {s : List UInt8}

/-- The tokens from `y` on match the string from `x` on. -/
def Rest (tokens : List Token) (s : List UInt8) (x y : ℕ) : Prop :=
  Matches (itemsOf (tokens.drop y)) (s.drop x)

/-- The scan can get to the end, from where it is or from the place it tries next. -/
def Accepts (tokens : List Token) (s : List UInt8) (scan : Scan) : Prop :=
  Rest tokens s scan.x scan.y ∨
    ∃ x y, scan.next = some (x,y) ∧ x ≤ s.length ∧ Rest tokens s x y

/-- From the star the scan is `between` further, tokens that take a letter an item. -/
structure Past (tokens : List Token) (scan : Scan) (x y : ℕ) : Prop where
  later : y < scan.y
  tokens : ∃ between, tokens.drop (y+1) = between ++ tokens.drop scan.y ∧
    (∀ item ∈ itemsOf between, item.IsOne) ∧ scan.x+1 = x+(itemsOf between).length

/-- The scan is in the string, and past its star or about to try it again. -/
structure Scanning (tokens : List Token) (s : List UInt8) (scan : Scan) : Prop where
  x_le : scan.x ≤ s.length
  y_le : scan.y ≤ tokens.length
  next : ∀ x y, scan.next = some (x,y) → tokens[y]? = some .star ∧ 0 < x ∧
    ((scan.x = x ∧ scan.y = y) ∨ Past tokens scan x y)

theorem drop_of_token {y : ℕ} {token : Token} (h : tokens[y]? = some token) :
    tokens.drop y = token::tokens.drop (y+1) := by
  obtain ⟨hlt,rfl⟩ := List.getElem?_eq_some_iff.1 h
  exact List.drop_eq_getElem_cons hlt

theorem rest_token {x y : ℕ} {token : Token} (h : tokens[y]? = some token) :
    Rest tokens s x y ↔ Matches (token.items ++ itemsOf (tokens.drop (y+1))) (s.drop x) := by
  rw [Rest, drop_of_token h]
  rfl

theorem rest_str {x y : ℕ} {literal : List UInt8} (h : tokens[y]? = some (.str literal)) :
    Rest tokens s x y ↔ literal <+: s.drop x ∧ Rest tokens s (x+literal.length) (y+1) := by
  rw [rest_token h, Token.items, matches_letters_append, Rest, ← List.drop_drop (l := s)]
  constructor
  · rintro ⟨rest,heq,hrest⟩
    rw [heq, List.drop_left]
    exact ⟨List.prefix_append literal rest,hrest⟩
  · rintro ⟨⟨rest,heq⟩,hrest⟩
    rw [← heq, List.drop_left] at hrest
    exact ⟨rest,heq.symm,hrest⟩

theorem rest_one {x y : ℕ} {token : Token} {accepts : UInt8 → Bool} (h : tokens[y]? = some token)
    (hone : token.items = [.one accepts]) :
    Rest tokens s x y ↔ s[x]?.any accepts = true ∧ Rest tokens s (x+1) (y+1) := by
  rw [rest_token h, hone, Rest, ← List.drop_drop (l := s), Option.any_eq_true]
  constructor
  · rintro ⟨c,rest,heq,hc,hrest⟩
    have hget : s[x]? = some c := by
      rw [← List.head?_drop, heq]
      rfl
    rw [heq]
    exact ⟨⟨c,hget,hc⟩,hrest⟩
  · rintro ⟨⟨c,hget,hc⟩,hrest⟩
    obtain ⟨hlt,rfl⟩ := List.getElem?_eq_some_iff.1 hget
    rw [List.drop_eq_getElem_cons hlt] at hrest ⊢
    exact ⟨s[x],s.drop (x+1),rfl,hc,hrest⟩

theorem rest_end {x y : ℕ} (h : tokens.length ≤ y) : Rest tokens s x y ↔ s.length ≤ x := by
  rw [Rest, List.drop_eq_nil_of_le h]
  exact List.drop_eq_nil_iff

/-- A star takes nothing more, or one letter. -/
theorem rest_star {x y : ℕ} (h : tokens[y]? = some .star) :
    Rest tokens s x y ↔ Rest tokens s x (y+1) ∨ (x+1 ≤ s.length ∧ Rest tokens s (x+1) y) := by
  by_cases hx : x < s.length
  · rw [rest_token h, Rest, Rest, drop_of_token h, List.drop_eq_getElem_cons hx]
    exact matches_star_cons.trans (or_congr_right (and_iff_right hx).symm)
  · rw [or_iff_left fun h => hx h.1, rest_token h, Rest, List.drop_eq_nil_of_le (not_lt.1 hx)]
    constructor
    · rintro ⟨rest,hrest,hmatch⟩
      obtain rfl := List.suffix_nil.1 hrest
      exact hmatch
    · intro hmatch
      exact ⟨[],List.nil_suffix,hmatch⟩

/-- A star before a literal takes all that is before the literal. -/
theorem rest_star_skip {x y pos : ℕ} {literal : List UInt8} (h : tokens[y]? = some .star)
    (hstr : tokens[y+1]? = some (.str literal)) (hle : x+pos ≤ s.length)
    (hfirst : ∀ i < pos, ¬literal <+: (s.drop x).drop i) :
    Rest tokens s x y ↔ Rest tokens s (x+pos) y := by
  induction pos with
  | zero => rfl
  | succ pos ih =>
    have hnot : ¬Rest tokens s (x+pos) (y+1) := fun hrest =>
      hfirst pos (Nat.lt_succ_self pos) (List.drop_drop ▸ ((rest_str hstr).1 hrest).1)
    rw [ih (by omega) fun i hi => hfirst i (Nat.lt_succ_of_lt hi), rest_star h, or_iff_right hnot]
    exact and_iff_right hle

theorem Rest.star_mono {x x' y : ℕ} (h : Rest tokens s x' y) (hstar : tokens[y]? = some .star)
    (hx : x ≤ x') : Rest tokens s x y := by
  rw [rest_token hstar] at h ⊢
  apply h.star_mono
  obtain ⟨k,rfl⟩ := Nat.le.dest hx
  rw [← List.drop_drop (l := s)]
  exact List.drop_suffix k _

/-- At a star, the place to try next brings nothing that the star does not. -/
theorem Scanning.next_rest {scan : Scan} (h : Scanning tokens s scan)
    (hstar : tokens[scan.y]? = some .star) {x y : ℕ} (hnext : scan.next = some (x,y))
    (hrest : Rest tokens s x y) : Rest tokens s scan.x scan.y := by
  obtain ⟨hlast,-,⟨rfl,rfl⟩ | hpast⟩ := h.next x y hnext
  · exact hrest
  · obtain ⟨between,hbetween,hone,hwidth⟩ := hpast.tokens
    rw [rest_token hlast, hbetween, items_of_append, drop_of_token hstar] at hrest
    have hlater : Rest tokens s (x+(itemsOf between).length) scan.y := by
      rw [rest_token hstar, ← List.drop_drop (l := s)]
      exact Matches.next_star hrest hone
    exact hlater.star_mono hstar (by omega)

/-! ## The scan gets to an end -/

theorem stars_left_lt {next next' : Option (ℕ × ℕ)} {q q' : ℕ}
    (h : starsLeft tokens s next' < starsLeft tokens s next) (hq : q' ≤ tokens.length+2) :
    starsLeft tokens s next'*(tokens.length+3) + q' <
      starsLeft tokens s next*(tokens.length+3) + q := by
  have hmul := Nat.mul_le_mul_right (tokens.length+3) (Nat.succ_le_of_lt h)
  rw [Nat.succ_mul] at hmul
  omega

/-- A star that is tried further on leaves less to try. -/
theorem Scanning.stars_left {scan : Scan} (h : Scanning tokens s scan) {x : ℕ}
    (hstar : tokens[scan.y]? = some .star) (hx : scan.x < x) :
    starsLeft tokens s (some (x,scan.y)) < starsLeft tokens s scan.next := by
  have hy : scan.y < tokens.length := (List.getElem?_eq_some_iff.1 hstar).1
  have hxle := h.x_le
  cases hnext : scan.next with
  | none =>
    have hmul := Nat.mul_le_mul_right (s.length+2)
      (Nat.sub_le tokens.length scan.y : tokens.length-scan.y ≤ tokens.length)
    rw [starsLeft, starsLeft, Nat.succ_mul]
    omega
  | some place =>
    obtain ⟨x',y'⟩ := place
    obtain ⟨-,-,⟨hx',hy'⟩ | hpast⟩ := h.next x' y' hnext
    · rw [starsLeft, starsLeft, ← hx', ← hy']
      omega
    · have hmul := Nat.mul_le_mul_right (s.length+2)
        (Nat.sub_lt_sub_left (hpast.later.trans hy) hpast.later)
      rw [Nat.succ_mul] at hmul
      rw [starsLeft, starsLeft]
      omega

theorem Scanning.not_retrying {scan : Scan} (h : Scanning tokens s scan)
    (hstar : tokens[scan.y]? ≠ some .star) : scan.next.map Prod.snd ≠ some scan.y := by
  intro heq
  obtain ⟨⟨x,y⟩,hnext,rfl⟩ := Option.map_eq_some_iff.1 heq
  exact hstar (h.next x scan.y hnext).1

/-- What a turn does to a scan. -/
def Turn.Sound (tokens : List Token) (s : List UInt8) (scan : Scan) : Turn → Prop
  | .go scan' => Scanning tokens s scan' ∧ (Accepts tokens s scan' ↔ Accepts tokens s scan) ∧
      stepsLeft tokens s scan' < stepsLeft tokens s scan
  | .stop => ¬Accepts tokens s scan
  | .retry => ¬Rest tokens s scan.x scan.y ∧ tokens[scan.y]? ≠ some .star

/-- A token that takes a letter an item is passed. -/
theorem Scanning.forward {scan : Scan} (h : Scanning tokens s scan) {token : Token}
    (htoken : tokens[scan.y]? = some token) (hone : ∀ item ∈ token.items, item.IsOne) {x : ℕ}
    (hwidth : x = scan.x+token.items.length) (hx : x ≤ s.length)
    (hrest : Rest tokens s scan.x scan.y ↔ Rest tokens s x (scan.y+1)) :
    Turn.Sound tokens s scan (.go { scan with x := x, y := scan.y+1 }) := by
  have hlt : scan.y < tokens.length := (List.getElem?_eq_some_iff.1 htoken).1
  have hstar : tokens[scan.y]? ≠ some .star := by
    intro hstar
    cases htoken.symm.trans hstar
    exact hone .star (by simp [Token.items])
  have hpast {x' y' : ℕ} (hnext : scan.next = some (x',y')) : Past tokens scan x' y' := by
    obtain ⟨hlast,-,⟨-,rfl⟩ | hpast⟩ := h.next x' y' hnext
    · exact (hstar hlast).elim
    · exact hpast
  refine ⟨⟨hx,hlt,?_⟩,or_congr_left hrest.symm,?_⟩
  · intro x' y' hnext
    obtain ⟨hlast,hpos,-⟩ := h.next x' y' hnext
    obtain ⟨between,hbetween,hones,hplace⟩ := (hpast hnext).tokens
    refine ⟨hlast,hpos,.inr ⟨(hpast hnext).later.trans (Nat.lt_succ_self _),between ++ [token],?_,
      ?_,?_⟩⟩
    · rw [hbetween, drop_of_token htoken, List.append_assoc]
      rfl
    · rw [items_of_append]
      intro item hitem
      rcases List.mem_append.1 hitem with hitem | hitem
      · exact hones item hitem
      · exact hone item (by simpa [itemsOf] using hitem)
    · have hlength : (itemsOf [token]).length = token.items.length := by simp [itemsOf]
      rw [items_of_append, List.length_append, hlength]
      show x+1 = x'+_
      omega
  · have hlater : scan.next.map Prod.snd ≠ some (scan.y+1) := by
      intro heq
      obtain ⟨⟨x',y'⟩,hnext,hy'⟩ := Option.map_eq_some_iff.1 heq
      have := (hpast hnext).later
      omega
    rw [stepsLeft, stepsLeft, if_neg hlater, if_neg (h.not_retrying hstar)]
    show starsLeft tokens s scan.next*(tokens.length+3) + (tokens.length+2-(scan.y+1)) < _
    omega

theorem Scanning.star {scan : Scan} (h : Scanning tokens s scan)
    (hstar : tokens[scan.y]? = some .star) {x y x' : ℕ} (skipped : List Token)
    (hdrop : tokens.drop (scan.y+1) = skipped ++ tokens.drop y) (hy : y ≤ tokens.length)
    (hlater : scan.y < y) (hone : ∀ item ∈ itemsOf skipped, item.IsOne)
    (hplace : x+1 = x'+(itemsOf skipped).length) (hx : x ≤ s.length) (hx' : scan.x < x')
    (hrest : Rest tokens s scan.x scan.y ↔
      Rest tokens s x y ∨ (x' ≤ s.length ∧ Rest tokens s x' scan.y)) :
    Turn.Sound tokens s scan (.go ⟨x,y,some (x',scan.y)⟩) := by
  refine ⟨⟨hx,hy,?_⟩,?_,stars_left_lt (h.stars_left hstar hx') ?_⟩
  · intro x'' y'' hnext
    cases hnext
    exact ⟨hstar,by omega,.inr ⟨hlater,skipped,hdrop,hone,hplace⟩⟩
  · have haccepts : Accepts tokens s scan ↔ Rest tokens s scan.x scan.y := by
      apply or_iff_left_of_imp
      rintro ⟨x'',y'',hnext,-,hrest⟩
      exact h.next_rest hstar hnext hrest
    rw [haccepts, hrest, Accepts]
    apply or_congr_right
    constructor
    · rintro ⟨x'',y'',hnext,hle,hrest⟩
      cases hnext
      exact ⟨hle,hrest⟩
    · rintro ⟨hle,hrest⟩
      exact ⟨x',scan.y,rfl,hle,hrest⟩
  · split <;> omega

theorem turn_sound {scan : Scan} (h : Scanning tokens s scan)
    (hmore : scan.x < s.length ∨ scan.y < tokens.length) :
    (turn tokens s scan).Sound tokens s scan := by
  have hx := h.x_le
  unfold turn
  split
  · next literal htoken =>
    have hrest := rest_str (s := s) (x := scan.x) htoken
    split
    · next hstart =>
      rw [List.isPrefixOf_iff_prefix] at hstart
      have hlen := hstart.length_le
      rw [List.length_drop] at hlen
      apply h.forward htoken
      · simp [Token.items, letters, Item.IsOne]
      · simp [Token.items, letters]
      · omega
      · rw [hrest, and_iff_right hstart]
    · next hstart =>
      rw [List.isPrefixOf_iff_prefix] at hstart
      exact ⟨fun h => hstart (hrest.1 h).1,by simp [htoken]⟩
  · next hstar =>
    have hlt : scan.y < tokens.length := (List.getElem?_eq_some_iff.1 hstar).1
    split
    · next literal hstr =>
      split
      · next pos hfind =>
        obtain ⟨hfound,hpos,hfirst⟩ := find_some hfind
        have hlen := hfound.length_le
        rw [List.drop_drop, List.length_drop] at hlen
        rw [List.length_drop] at hpos
        rw [List.drop_drop] at hfound
        apply h.star hstar [.str literal]
        · rw [drop_of_token hstr]
          rfl
        · exact (List.getElem?_eq_some_iff.1 hstr).1
        · omega
        · simp [itemsOf, Token.items, letters, Item.IsOne]
        · simp [itemsOf, Token.items, letters]
          omega
        · omega
        · omega
        · rw [rest_star_skip hstar hstr (by omega) hfirst, rest_star hstar, rest_str hstr, and_iff_right hfound]
      · next hfind =>
        intro haccepts
        have hno : ¬Rest tokens s scan.x scan.y := by
          rw [rest_token hstar, drop_of_token hstr]
          rintro ⟨rest,hsuffix,hmatch⟩
          obtain ⟨rest',rfl,-⟩ := matches_letters_append.1 hmatch
          exact find_none hfind hsuffix (List.prefix_append literal rest')
        rcases haccepts with hrest | ⟨x,y,hnext,-,hrest⟩
        · exact hno hrest
        · exact hno (h.next_rest hstar hnext hrest)
    · apply h.star hstar []
      · rfl
      · exact hlt
      · omega
      · simp [itemsOf]
      · rfl
      · exact hx
      · omega
      · exact rest_star hstar
  · next htoken =>
    have hrest := rest_one (s := s) (x := scan.x) htoken rfl
    split
    · next hlt =>
      apply h.forward htoken
      · simp [Token.items, Item.IsOne]
      · rfl
      · exact hlt
      · rw [hrest]
        simp [hlt]
    · next hlt =>
      rw [List.getElem?_eq_none (not_lt.1 hlt)] at hrest
      exact ⟨fun h => Bool.false_ne_true (hrest.1 h).1,by simp [htoken]⟩
  · next chars htoken =>
    have hrest := rest_one (s := s) (x := scan.x) htoken rfl
    split
    · next hany =>
      apply h.forward htoken
      · simp [Token.items, Item.IsOne]
      · rfl
      · by_contra hlt
        rw [List.getElem?_eq_none (by omega)] at hany
        cases hany
      · rw [hrest, and_iff_right hany]
    · next hany => exact ⟨fun h => hany (hrest.1 h).1,by simp [htoken]⟩
  · next htoken =>
    rw [List.getElem?_eq_none_iff] at htoken
    rw [Turn.Sound, rest_end htoken]
    exact ⟨by omega,by simp [htoken]⟩

/-- A step of the scan says what is right, or goes on to the same with less left. -/
theorem step_sound {scan : Scan} (h : Scanning tokens s scan) :
    (∃ result, step tokens s scan = .inl result ∧ (result = true ↔ Accepts tokens s scan)) ∨
      ∃ scan', step tokens s scan = .inr scan' ∧ Scanning tokens s scan' ∧
        (Accepts tokens s scan' ↔ Accepts tokens s scan) ∧
        stepsLeft tokens s scan' < stepsLeft tokens s scan := by
  unfold step
  by_cases hmore : scan.x < s.length ∨ scan.y < tokens.length
  · rw [if_pos hmore]
    have hturn := turn_sound h hmore
    cases hcase : turn tokens s scan with
    | go scan' =>
      rw [hcase] at hturn
      exact .inr ⟨scan',rfl,hturn⟩
    | stop =>
      rw [hcase] at hturn
      exact .inl ⟨false,rfl,by simp [show ¬Accepts tokens s scan from hturn]⟩
    | retry =>
      rw [hcase] at hturn
      obtain ⟨hrest,hstar⟩ := hturn
      cases hnext : scan.next with
      | none => exact .inl ⟨false,rfl,by simp [Accepts, hrest, hnext]⟩
      | some place =>
        obtain ⟨x,y⟩ := place
        by_cases hx : x ≤ s.length
        · refine .inr ⟨⟨x,y,some (x,y)⟩,if_pos hx,?_,?_,?_⟩
          · obtain ⟨hlast,hpos,-⟩ := h.next x y hnext
            refine ⟨hx,(List.getElem?_eq_some_iff.1 hlast).1.le,?_⟩
            intro x' y' heq
            cases heq
            exact ⟨hlast,hpos,.inl ⟨rfl,rfl⟩⟩
          · simp [Accepts, hrest, hnext, hx]
          · have hy := h.y_le
            rw [stepsLeft, stepsLeft, if_neg (h.not_retrying hstar), hnext]
            show starsLeft tokens s (some (x,y))*(tokens.length+3) +
              (if some y = some y then 0 else _) < _
            rw [if_pos rfl]
            omega
        · exact .inl ⟨false,if_neg hx,by simp [Accepts, hrest, hnext, hx]⟩
  · rw [if_neg hmore, not_or, not_lt, not_lt] at *
    exact .inl ⟨true,rfl,by simp [Accepts, rest_end hmore.2, hmore.1]⟩

/-- The scan ends, and says whether it can get to the end. -/
theorem run_sound {scan : Scan} (h : Scanning tokens s scan) {fuel : ℕ}
    (hfuel : stepsLeft tokens s scan < fuel) :
    ∃ result, run tokens s fuel scan = some result ∧ (result = true ↔ Accepts tokens s scan) := by
  induction fuel generalizing scan with
  | zero => exact (Nat.not_lt_zero _ hfuel).elim
  | succ fuel ih =>
    rw [run]
    obtain ⟨result,hstep,hresult⟩ | ⟨scan',hstep,hscan,haccepts,hless⟩ := step_sound h
    · rw [hstep]
      exact ⟨result,rfl,hresult⟩
    · rw [hstep, ← haccepts]
      exact ih hscan (by omega)

end Scanning

theorem ends_apart {tokens : List Token} {s : List UInt8} (h : endsApart tokens s = true) :
    ¬Matches (itemsOf tokens) s := by
  unfold endsApart at h
  split at h
  · next suffix hlast =>
    obtain ⟨init,rfl⟩ := List.getLast?_eq_some_iff.1 hlast
    rw [items_of_append, matches_append]
    rintro ⟨u,v,rfl,-,hv⟩
    have hv : v = suffix := matches_letters.1 (by simpa [itemsOf, Token.items] using hv)
    rw [hv, Bool.not_eq_true', ← Bool.not_eq_true, List.isSuffixOf_iff_suffix] at h
    exact h (List.suffix_append u suffix)
  · cases h

/-- A compiled pattern matches what its items do. -/
theorem Pattern.matches_iff (p : Pattern) (s : List UInt8) :
    p.matches s = true ↔ Matches (itemsOf p.tokens) s := by
  unfold Pattern.matches
  split
  · next h => simp [ends_apart h]
  · have hstart : Scanning p.tokens s start := ⟨Nat.zero_le _,Nat.zero_le _,by simp [start]⟩
    obtain ⟨result,hrun,hresult⟩ := run_sound hstart (Nat.lt_succ_self _)
    rw [hrun, Option.getD_some, hresult]
    simp [Accepts, Rest, start]

end MoldMacho.Globs
