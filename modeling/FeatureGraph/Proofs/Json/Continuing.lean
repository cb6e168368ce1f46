-- Reading with more bytes behind. A string, an array or an object ends with
-- its own closing byte, so whatever comes after it, it is read as before. A
-- number ends where something else begins, so it is read as before if
-- something else came. A whole record with more than blanks behind is no
-- record any more.
import FeatureGraph.Json.Reader

namespace FeatureGraph.Json

variable {α β : Type} {scan scan' : Scan α} {bs rest more : Bytes} {a : α}

/-- What one reader reads another reads as well, with any bytes behind. -/
def Closes (scan scan' : Scan α) : Prop :=
  ∀ bs a rest, scan bs = some (a, rest) → ∀ more, scan' (bs ++ more) = some (a, rest ++ more)

/-- What one reader reads before the end, another reads as well with any bytes behind. -/
def Extends (scan scan' : Scan α) : Prop :=
  ∀ bs a rest, scan bs = some (a, rest) → rest ≠ [] →
    ∀ more, scan' (bs ++ more) = some (a, rest ++ more)

theorem Closes.map (h : Closes scan scan') (f : α → β) :
    Closes (fun bs => (scan bs).map fun (a, rest) => (f a, rest))
      (fun bs => (scan' bs).map fun (a, rest) => (f a, rest)) := by
  intro bs b rest hread more
  obtain ⟨⟨a, tail⟩, hscan, heq⟩ := Option.map_eq_some_iff.mp hread
  cases heq
  simp only [h bs a rest hscan more, Option.map_some]

theorem Extends.map (h : Extends scan scan') (f : α → β) :
    Extends (fun bs => (scan bs).map fun (a, rest) => (f a, rest))
      (fun bs => (scan' bs).map fun (a, rest) => (f a, rest)) := by
  intro bs b rest hread hrest more
  obtain ⟨⟨a, tail⟩, hscan, heq⟩ := Option.map_eq_some_iff.mp hread
  cases heq
  simp only [h bs a rest hscan hrest more, Option.map_some]

/-! ## Blanks and words -/

theorem skipBlanks_append (h : skipBlanks bs ≠ []) (more : Bytes) :
    skipBlanks (bs ++ more) = skipBlanks bs ++ more := by
  unfold skipBlanks at h ⊢
  rw [List.dropWhile_append, if_neg (by simpa using h)]

theorem skipBlanks_append_blanks (h : skipBlanks bs = []) (more : Bytes) :
    skipBlanks (bs ++ more) = skipBlanks more := by
  unfold skipBlanks at h ⊢
  rw [List.dropWhile_append, if_pos (by simpa using h)]

theorem skipBlanks_cons_append {b : UInt8} (h : skipBlanks bs = b :: rest) (more : Bytes) :
    skipBlanks (bs ++ more) = b :: (rest ++ more) := by
  rw [skipBlanks_append (by simp [h]), h, List.cons_append]

theorem closes_exactly (word : Bytes) : Closes (exactly word) (exactly word) := by
  intro bs a rest h more
  unfold exactly at h ⊢
  split at h
  · rename_i hword
    obtain ⟨behind, rfl⟩ := List.isPrefixOf_iff_prefix.mp hword
    obtain ⟨-, rfl⟩ := Prod.mk.inj (Option.some.inj h)
    rw [if_pos (by simp [List.append_assoc]), List.append_assoc, List.drop_left, List.drop_left]
  · cases h

/-! ## Numbers -/

theorem extends_digits : Extends digits digits := by
  intro bs ds rest h hrest more
  have hstops : bs.dropWhile isDigit ≠ [] := by
    unfold digits at h
    split at h
    · cases h
    · cases h
      exact hrest
  have htake : (bs ++ more).takeWhile isDigit = bs.takeWhile isDigit := by
    rw [List.takeWhile_append, if_neg]
    intro hall
    apply hstops
    have hlength := congrArg List.length (List.takeWhile_append_dropWhile (p := isDigit) (l := bs))
    rw [List.length_append, hall] at hlength
    exact List.eq_nil_of_length_eq_zero (by omega)
  have hdrop : (bs ++ more).dropWhile isDigit = bs.dropWhile isDigit ++ more := by
    rw [List.dropWhile_append, if_neg (by simpa using hstops)]
  unfold digits at h ⊢
  rw [htake, hdrop]
  split at h
  · cases h
  · cases h
    rfl

theorem extends_wholeDigits : Extends wholeDigits wholeDigits := by
  intro bs ds rest h hrest more
  unfold wholeDigits at h ⊢
  cases hdigits : digits bs with
  | none => simp [hdigits] at h
  | some read =>
    obtain ⟨ds', rest'⟩ := read
    rw [hdigits] at h
    have hrest' : rest' = rest := by
      split at h
      · rename_i heq
        cases heq
        split at h <;> cases h
        rfl
      · cases h
        rfl
    subst hrest'
    rw [extends_digits bs ds' rest' hdigits hrest more]
    match ds', h with
    | [], h => cases h; rfl
    | [d], h => cases h; rfl
    | d :: e :: ds', h =>
      simp only at h ⊢
      split at h
      · cases h
      · rename_i hd
        cases h
        rw [if_neg hd]

theorem extends_fractionDigits : Extends fractionDigits fractionDigits := by
  intro bs ds rest h hrest more
  unfold fractionDigits at h ⊢
  cases bs with
  | nil =>
    cases h
    exact absurd rfl hrest
  | cons b bs =>
    simp only [List.cons_append] at h ⊢
    split at h
    · rename_i hb
      rw [if_pos hb]
      exact extends_digits bs ds rest h hrest more
    · rename_i hb
      cases h
      rw [if_neg hb]
      rfl

theorem takeSign_append (h : bs ≠ []) (more : Bytes) :
    takeSign (bs ++ more) = ((takeSign bs).1, (takeSign bs).2 ++ more) := by
  cases bs with
  | nil => exact absurd rfl h
  | cons b bs =>
    simp only [takeSign, List.cons_append]
    split
    · rfl
    · split <;> rfl

theorem extends_exponentDigits : Extends exponentDigits exponentDigits := by
  intro bs e rest h hrest more
  unfold exponentDigits at h ⊢
  cases bs with
  | nil =>
    cases h
    exact absurd rfl hrest
  | cons b bs =>
    simp only [List.cons_append] at h ⊢
    split at h
    · rename_i hb
      rw [if_pos hb]
      have hne : bs ≠ [] := by
        rintro rfl
        cases h
      rw [takeSign_append hne]
      exact extends_digits.map (fun ds => some ((takeSign bs).1, ds)) _ e rest h hrest more
    · rename_i hb
      cases h
      rw [if_neg hb]
      rfl

/-- A number after its sign. -/
def magnitude (negative : Bool) : Scan Numeral := fun bs =>
  match wholeDigits bs with
  | none => none
  | some (whole, bs) =>
    match fractionDigits bs with
    | none => none
    | some (fraction, bs) =>
      (exponentDigits bs).map fun (exponent, bs) => (⟨negative, whole, fraction, exponent⟩, bs)

theorem numeral_cons (b : UInt8) (bs : Bytes) :
    numeral (b :: bs) = if b = 0x2D then magnitude true bs else magnitude false (b :: bs) := by
  by_cases hb : b = 0x2D
  · simp only [numeral, if_pos hb]
    rfl
  · simp only [numeral, if_neg hb]
    rfl

/-- The parts of a number that is read. -/
theorem magnitude_eq_some {negative : Bool} {n : Numeral} :
    magnitude negative bs = some (n, rest) ↔ ∃ bs₁ bs₂, wholeDigits bs = some (n.whole, bs₁) ∧
      fractionDigits bs₁ = some (n.fraction, bs₂) ∧
      exponentDigits bs₂ = some (n.exponent, rest) ∧ n.negative = negative := by
  unfold magnitude
  constructor
  · intro h
    split at h
    · cases h
    · rename_i whole bs₁ hwhole
      split at h
      · cases h
      · rename_i fraction bs₂ hfraction
        obtain ⟨⟨exponent, rest'⟩, hexponent, heq⟩ := Option.map_eq_some_iff.mp h
        cases heq
        exact ⟨bs₁, bs₂, hwhole, hfraction, hexponent, rfl⟩
  · rintro ⟨bs₁, bs₂, hwhole, hfraction, hexponent, rfl⟩
    simp only [hwhole, hfraction, hexponent, Option.map_some]

theorem extends_magnitude (negative : Bool) : Extends (magnitude negative) (magnitude negative) := by
  intro bs n rest h hrest more
  obtain ⟨bs₁, bs₂, hwhole, hfraction, hexponent, hsign⟩ := magnitude_eq_some.mp h
  have hbs₂ : bs₂ ≠ [] := by
    rintro rfl
    exact hrest (Prod.mk.inj (Option.some.inj hexponent)).2.symm
  have hbs₁ : bs₁ ≠ [] := by
    rintro rfl
    exact hbs₂ (Prod.mk.inj (Option.some.inj hfraction)).2.symm
  exact magnitude_eq_some.mpr ⟨bs₁ ++ more, bs₂ ++ more,
    extends_wholeDigits bs _ bs₁ hwhole hbs₁ more,
    extends_fractionDigits bs₁ _ bs₂ hfraction hbs₂ more,
    extends_exponentDigits bs₂ _ rest hexponent hrest more, hsign⟩

theorem extends_numeral : Extends numeral numeral := by
  intro bs n rest h hrest more
  cases bs with
  | nil => cases h
  | cons b bs =>
    rw [numeral_cons] at h
    rw [List.cons_append, numeral_cons]
    split at h
    · rename_i hb
      rw [if_pos hb]
      exact extends_magnitude true bs n rest h hrest more
    · rename_i hb
      rw [if_neg hb]
      exact extends_magnitude false (b :: bs) n rest h hrest more

/-! ## Strings -/

theorem closes_hexQuad : Closes hexQuad hexQuad := by
  intro bs n rest h more
  unfold hexQuad at h ⊢
  split at h
  · rename_i a b c d tail
    simp only [List.cons_append]
    split at h
    · cases h
      rfl
    · cases h
  · cases h

theorem closes_numberedChar : Closes numberedChar numberedChar := by
  intro bs c rest h more
  unfold numberedChar at h ⊢
  cases hquad : hexQuad bs with
  | none => simp only [hquad, reduceCtorEq] at h
  | some read =>
    obtain ⟨n, tail⟩ := read
    simp only [hquad] at h
    simp only [closes_hexQuad bs n tail hquad more]
    split at h
    · cases h
    · rename_i hlow
      rw [if_neg hlow]
      split at h
      · rename_i hhigh
        rw [if_pos hhigh]
        -- the second of a pair of surrogates
        match tail, h with
        | b :: u :: behind, h =>
          simp only [List.cons_append] at h ⊢
          split at h
          · rename_i hmark
            rw [if_pos hmark]
            cases hquad' : hexQuad behind with
            | none => simp only [hquad', reduceCtorEq] at h
            | some read =>
              obtain ⟨m, tail'⟩ := read
              simp only [hquad'] at h
              simp only [closes_hexQuad behind m tail' hquad' more]
              split at h
              · rename_i hpair
                obtain ⟨rfl, rfl⟩ := Prod.mk.inj (Option.some.inj h)
                rw [if_pos hpair]
              · cases h
          · cases h
      · rename_i hhigh
        cases h
        rw [if_neg hhigh]

/-- What follows a backslash, by what is read behind a `u`. -/
def escapeBy (numbered : Scan Bytes) : Scan Bytes := fun bs =>
  match bs with
  | [] => none
  | b :: rest =>
    if b = 0x75 then numbered rest else (escapedByte? b).map fun e => ([e], rest)

theorem closes_escapeBy {numbered : Scan Bytes} (h : Closes numbered numbered) :
    Closes (escapeBy numbered) (escapeBy numbered) := by
  intro bs out rest hread more
  unfold escapeBy at hread ⊢
  cases bs with
  | nil => cases hread
  | cons b bs =>
    simp only [List.cons_append] at hread ⊢
    split at hread
    · rename_i hb
      rw [if_pos hb]
      exact h bs out rest hread more
    · rename_i hb
      obtain ⟨e, hbyte, heq⟩ := Option.map_eq_some_iff.mp hread
      cases heq
      rw [if_neg hb, hbyte]
      rfl

theorem escape_eq : escape = escapeBy fun bs =>
    (numberedChar bs).map fun read => (String.utf8EncodeChar read.1, read.2) := by
  funext bs
  cases bs <;> rfl

theorem escapeShape_eq :
    escapeShape = escapeBy fun bs => (hexQuad bs).map fun read => ([], read.2) := by
  funext bs
  cases bs <;> rfl

theorem closes_escape : Closes escape escape := by
  rw [escape_eq]
  exact closes_escapeBy (closes_numberedChar.map String.utf8EncodeChar)

theorem closes_escapeShape : Closes escapeShape escapeShape := by
  rw [escapeShape_eq]
  exact closes_escapeBy (closes_hexQuad.map fun _ => [])

/-- A string ends with its quote, and the bytes it is read from are enough fuel for it. -/
theorem stringBody_append {escape : Scan Bytes} (hescape : Closes escape escape)
    {fuel fuel' done out : Bytes} (h : stringBody escape fuel done bs = some (out, rest))
    (hfuel : fuel.length ≤ fuel'.length) (more : Bytes) :
    stringBody escape fuel' done (bs ++ more) = some (out, rest ++ more) := by
  induction fuel generalizing fuel' done bs with
  | nil => cases h
  | cons f fuel ih =>
    obtain ⟨f', fuel', rfl⟩ := List.exists_cons_of_length_pos (l := fuel') (by simp at hfuel; omega)
    have hfuel' : fuel.length ≤ fuel'.length := by simpa using hfuel
    cases bs with
    | nil => cases h
    | cons b bs =>
      rw [stringBody] at h
      rw [List.cons_append, stringBody]
      split at h
      · rename_i hquote
        cases h
        rw [if_pos hquote]
      · rename_i hquote
        rw [if_neg hquote]
        split at h
        · rename_i hslash
          rw [if_pos hslash]
          split at h
          · cases h
          · rename_i out' tail hread
            rw [hescape bs out' tail hread more]
            exact ih h hfuel'
        · rename_i hslash
          rw [if_neg hslash]
          split at h
          · cases h
          · rename_i hcontrol
            rw [if_neg hcontrol]
            exact ih h hfuel'

theorem closes_keptString : Closes keptString keptString := by
  intro bs s rest h more
  unfold keptString at h ⊢
  split at h
  · cases h
  · rename_i raw tail hbody
    obtain ⟨text, hdecode, heq⟩ := Option.map_eq_some_iff.mp h
    cases heq
    rw [stringBody_append closes_escape hbody (by simp) more]
    simp only [hdecode, Option.map_some]

theorem closes_passedString : Closes passedString passedString := by
  intro bs s rest h more
  unfold passedString at h ⊢
  obtain ⟨⟨raw, tail⟩, hbody, heq⟩ := Option.map_eq_some_iff.mp h
  cases heq
  rw [stringBody_append closes_escapeShape hbody (by simp) more]
  rfl

/-! ## Arrays and objects -/

/-- What stands between brackets, with commas between them, from the next one on. -/
def seriesFrom (close : UInt8) (one : Scan α) : (fuel : Bytes) → (done : List α) → Scan (List α)
  | [], _, _ => none
  | _ :: fuel, done, bs =>
    match one bs with
    | none => none
    | some (a, rest) =>
      match skipBlanks rest with
      | [] => none
      | b :: rest =>
        if b = 0x2C then seriesFrom close one fuel (a :: done) rest
        else if b = close then some ((a :: done).reverse, rest)
        else none

/-- What stands between brackets, after the opening one. -/
def series (close : UInt8) (one : Scan α) : Scan (List α) := fun bs =>
  match skipBlanks bs with
  | [] => none
  | b :: rest => if b = close then some ([], rest) else seriesFrom close one bs [] (b :: rest)

theorem items_eq (item : Scan Json) : items item = series 0x5D item := by
  have hfrom (fuel : Bytes) (done : List Json) (bs : Bytes) :
      itemsFrom item fuel done bs = seriesFrom 0x5D item fuel done bs := by
    induction fuel generalizing done bs with
    | nil => rfl
    | cons f fuel ih =>
      rw [itemsFrom, seriesFrom]
      rcases item bs with _ | ⟨a, rest⟩
      · rfl
      · simp only
        cases skipBlanks rest with
        | nil => rfl
        | cons b rest => simp only [ih]
  funext bs
  rw [items, series]
  cases skipBlanks bs with
  | nil => rfl
  | cons b rest => simp only [hfrom]

theorem members_eq (one : Scan (String × Json)) : members one = series 0x7D one := by
  have hfrom (fuel : Bytes) (done : List (String × Json)) (bs : Bytes) :
      membersFrom one fuel done bs = seriesFrom 0x7D one fuel done bs := by
    induction fuel generalizing done bs with
    | nil => rfl
    | cons f fuel ih =>
      rw [membersFrom, seriesFrom]
      rcases one bs with _ | ⟨a, rest⟩
      · rfl
      · simp only
        cases skipBlanks rest with
        | nil => rfl
        | cons b rest => simp only [ih]
  funext bs
  rw [members, series]
  cases skipBlanks bs with
  | nil => rfl
  | cons b rest => simp only [hfrom]

theorem seriesFrom_append {close : UInt8} (hone : Extends scan scan') {fuel fuel' : Bytes}
    {done as : List α} (h : seriesFrom close scan fuel done bs = some (as, rest))
    (hfuel : fuel.length ≤ fuel'.length) (more : Bytes) :
    seriesFrom close scan' fuel' done (bs ++ more) = some (as, rest ++ more) := by
  induction fuel generalizing fuel' done bs with
  | nil => cases h
  | cons f fuel ih =>
    obtain ⟨f', fuel', rfl⟩ := List.exists_cons_of_length_pos (l := fuel') (by simp at hfuel; omega)
    have hfuel' : fuel.length ≤ fuel'.length := by simpa using hfuel
    rw [seriesFrom] at h ⊢
    split at h
    · cases h
    · rename_i a tail hread
      split at h
      · cases h
      · rename_i b behind hskip
        have htail : tail ≠ [] := by
          rintro rfl
          cases hskip
        simp only [hone bs a tail hread htail more, skipBlanks_cons_append hskip more]
        split at h
        · rename_i hcomma
          rw [if_pos hcomma]
          exact ih h hfuel'
        · rename_i hcomma
          rw [if_neg hcomma]
          split at h
          · rename_i hclose
            cases h
            rw [if_pos hclose]
          · cases h

theorem closes_series {close : UInt8} (hone : Extends scan scan') :
    Closes (series close scan) (series close scan') := by
  intro bs as rest h more
  unfold series at h ⊢
  split at h
  · cases h
  · rename_i b behind hskip
    simp only [skipBlanks_cons_append hskip more]
    split at h
    · rename_i hclose
      cases h
      rw [if_pos hclose]
    · rename_i hclose
      rw [if_neg hclose, ← List.cons_append]
      exact seriesFrom_append hone h (by simp) more

theorem extends_member {string : Scan String} {item item' : String → Scan Json}
    (hstring : Closes string string) (hitem : ∀ key, Extends (item key) (item' key)) :
    Extends (member string item) (member string item') := by
  intro bs m rest h hrest more
  unfold member at h ⊢
  split at h
  · cases h
  · rename_i b behind hskip
    simp only [skipBlanks_cons_append hskip more]
    split at h
    · rename_i hquote
      rw [if_pos hquote]
      split at h
      · cases h
      · rename_i key tail hkey
        simp only [hstring behind key tail hkey more]
        split at h
        · cases h
        · rename_i c behind' hskip'
          simp only [skipBlanks_cons_append hskip' more]
          split at h
          · rename_i hcolon
            rw [if_pos hcolon]
            exact (hitem key).map (key, ·) behind' m rest h hrest more
          · cases h
    · cases h

/-! ## Documents -/

theorem extends_scalar {lexis : Lexis} (hstring : Closes lexis.string lexis.string) :
    Extends (scalar lexis) (scalar lexis) := by
  intro bs j rest h hrest more
  unfold scalar at h ⊢
  cases bs with
  | nil => cases h
  | cons b bs =>
    simp only [List.cons_append] at h ⊢
    split at h
    · rename_i hquote
      rw [if_pos hquote]
      exact hstring.map Json.string bs j rest h more
    · rename_i hquote
      rw [if_neg hquote]
      split at h
      · rename_i hnull
        rw [if_pos hnull]
        exact (closes_exactly _).map (fun _ => Json.null) bs j rest h more
      · rename_i hnull
        rw [if_neg hnull]
        split at h
        · rename_i htrue
          rw [if_pos htrue]
          exact (closes_exactly _).map (fun _ => Json.bool true) bs j rest h more
        · rename_i htrue
          rw [if_neg htrue]
          split at h
          · rename_i hfalse
            rw [if_pos hfalse]
            exact (closes_exactly _).map (fun _ => Json.bool false) bs j rest h more
          · rename_i hfalse
            rw [if_neg hfalse]
            split at h
            · cases h
            · rename_i n tail hnumeral
              obtain ⟨j', hnumber, heq⟩ := Option.map_eq_some_iff.mp h
              cases heq
              have hmore := extends_numeral (b :: bs) n rest hnumeral hrest more
              rw [List.cons_append] at hmore
              simp only [hmore, hnumber, Option.map_some]

/-- No leaf begins with an opening bracket. -/
theorem scalar_bracket (lexis : Lexis) (rest : Bytes) :
    scalar lexis (0x5B :: rest) = none ∧ scalar lexis (0x7B :: rest) = none := ⟨rfl, rfl⟩

/-- A document is read the same with bytes behind, and with a greater limit. -/
theorem extends_value {lexis : Lexis} (hstring : Closes lexis.string lexis.string)
    {limit limit' : Nat} (hle : limit ≤ limit') :
    Extends (value lexis limit) (value lexis limit') := by
  induction limit generalizing limit' with
  | zero =>
    intro bs j rest h hrest more
    rw [value] at h
    cases hskip : skipBlanks bs with
    | nil =>
      rw [hskip] at h
      cases h
    | cons b behind =>
      rw [hskip] at h
      have hread := extends_scalar hstring (b :: behind) j rest h hrest more
      have hskip' := skipBlanks_cons_append hskip more
      cases limit' with
      | zero =>
        rw [value, hskip']
        exact hread
      | succ limit' =>
        have harray : b ≠ 0x5B := by
          rintro rfl
          rw [(scalar_bracket lexis behind).1] at h
          cases h
        have hobject : b ≠ 0x7B := by
          rintro rfl
          rw [(scalar_bracket lexis behind).2] at h
          cases h
        rw [value, hskip']
        simp only [harray, hobject, if_false]
        exact hread
  | succ limit ih =>
    intro bs j rest h hrest more
    obtain ⟨limit', rfl⟩ : ∃ k, limit' = k + 1 := ⟨limit' - 1, by omega⟩
    have hitem := ih (Nat.le_of_succ_le_succ hle)
    rw [value] at h ⊢
    split at h
    · cases h
    · rename_i b behind hskip
      simp only [skipBlanks_cons_append hskip more]
      split at h
      · rename_i harray
        rw [if_pos harray]
        rw [items_eq] at h ⊢
        exact (closes_series hitem).map Json.array behind j rest h more
      · rename_i harray
        rw [if_neg harray]
        split at h
        · rename_i hobject
          rw [if_pos hobject]
          rw [members_eq] at h ⊢
          have hone := extends_member hstring fun _ => hitem
          exact (closes_series hone).map ofMembers behind j rest h more
        · rename_i hobject
          rw [if_neg hobject]
          exact extends_scalar hstring (b :: behind) j rest h hrest more

/-! ## Records -/

theorem extends_fieldItem (fields : List String) (key : String) :
    Extends (fieldItem fields key) (fieldItem fields key) := by
  intro bs j rest h hrest more
  unfold fieldItem at h ⊢
  split at h
  · rename_i hfield
    rw [if_pos hfield]
    exact extends_value closes_keptString (Nat.le_refl _) bs j rest h hrest more
  · rename_i hfield
    rw [if_neg hfield]
    exact extends_value closes_passedString (by simp) bs j rest h hrest more

theorem closes_arrayItems : Closes arrayItems arrayItems := by
  intro bs js rest h more
  unfold arrayItems at h ⊢
  split at h
  · cases h
  · rename_i b behind hskip
    simp only [skipBlanks_cons_append hskip more]
    split at h
    · rename_i hb
      rw [items_eq] at h
      rw [if_pos hb, items_eq]
      exact closes_series (extends_value closes_keptString (Nat.le_refl _)) behind js rest h more
    · cases h

theorem closes_objectMembers (fields : List String) :
    Closes (objectMembers (fieldItem fields)) (objectMembers (fieldItem fields)) := by
  intro bs ms rest h more
  unfold objectMembers at h ⊢
  split at h
  · cases h
  · rename_i b behind hskip
    simp only [skipBlanks_cons_append hskip more]
    split at h
    · rename_i hb
      rw [members_eq] at h
      rw [if_pos hb, members_eq]
      exact closes_series (extends_member closes_keptString (extends_fieldItem fields)) behind ms
        rest h more
    · cases h

theorem complete_append (hcloses : Closes scan scan) (h : complete scan bs = some a)
    (hmore : skipBlanks more ≠ []) : complete scan (bs ++ more) = none := by
  unfold complete at h ⊢
  split at h
  · rename_i a' rest hread
    split at h
    · rename_i hblank
      simp only [hcloses bs a' rest hread more]
      rw [skipBlanks_append_blanks hblank, if_neg hmore]
    · cases h
  · cases h

/-- Where a document begins. -/
theorem first_of_complete {b : UInt8} {one : Scan α}
    (h : complete (fun bs => match skipBlanks bs with
      | [] => none
      | c :: rest => if c = b then one rest else none) bs = some a) :
    ∃ rest, skipBlanks bs = b :: rest := by
  unfold complete at h
  dsimp only at h
  cases hskip : skipBlanks bs with
  | nil => simp [hskip] at h
  | cons c rest =>
    by_cases hc : c = b
    · exact ⟨rest, hc ▸ rfl⟩
    · simp [hskip, hc] at h

/-- A record with more than blanks behind is no record. -/
theorem parseRecord?_append {fields : List String} {js : List Json}
    (h : parseRecord? fields bs = some js) (hmore : skipBlanks more ≠ []) :
    parseRecord? fields (bs ++ more) = none := by
  unfold parseRecord? at h
  split at h
  · rename_i js' harray
    obtain ⟨rest, hskip⟩ := first_of_complete harray
    have hobject : complete (objectMembers (fieldItem fields)) (bs ++ more) = none := by
      simp [complete, objectMembers, skipBlanks_cons_append hskip more]
    simp only [parseRecord?, complete_append closes_arrayItems harray hmore, hobject]
  · split at h
    · cases h
    · rename_i ms hobject
      obtain ⟨rest, hskip⟩ := first_of_complete hobject
      have harray : complete arrayItems (bs ++ more) = none := by
        simp [complete, arrayItems, skipBlanks_cons_append hskip more]
      simp only [parseRecord?, harray,
        complete_append (closes_objectMembers fields) hobject hmore]

end FeatureGraph.Json
