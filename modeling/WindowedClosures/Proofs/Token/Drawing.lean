import WindowedClosures.Proofs.Token.Bare

/-!
# Pieces of text and their tokens

`Draws` says of a piece of text which tokens it is, if a character that does not run on follows it.
The lexemes of a piece may stand anywhere on a line, so pieces can be put together freely.
-/

namespace WindowedClosures

/-! ## Pieces of text -/

/-- A piece of text is laid out in the lexemes of tokens, if it ends the text or a character of the
set comes behind it. No piece starts with an equal sign, which might belong to a comparison. -/
structure Draws (ends : Char → Prop) (text : List Char) (bs : List Bare) : Prop where
  nested : NestedAll bs
  anywhere : ∀ lexeme ∈ lexemesAll bs, lexeme.Anywhere
  start : ∃ c rest, text = c :: rest ∧ c ≠ '='
  lays : ∀ behind lexemes, (∀ c ∈ behind.head?, ends c) → Lays behind lexemes →
    Lays (text ++ behind) (lexemesAll bs ++ lexemes)

/-- Any character may follow. -/
abbrev anyChar (_ : Char) : Prop := True

namespace Draws

variable {ends ends' : Char → Prop} {text text' : List Char} {bs bs' : List Bare}

theorem mono (h : Draws ends text bs) (le : ∀ c, ends' c → ends c) : Draws ends' text bs :=
  ⟨h.nested, h.anywhere, h.start, fun behind lexemes here => h.lays behind lexemes fun c hc => le c (here c hc)⟩

/-- One piece behind the other. -/
theorem append (h : Draws ends text bs) (h' : Draws ends' text' bs')
    (apart : ∀ c ∈ text'.head?, ends c) : Draws ends' (text ++ text') (bs ++ bs') := by
  obtain ⟨c, rest, rfl, ne⟩ := h.start
  obtain ⟨d, rest', rfl, -⟩ := h'.start
  constructor
  · exact nestedAll_append.mpr ⟨h.nested, h'.nested⟩
  · rw [lexemesAll_append]
    exact List.forall_mem_append.mpr ⟨h.anywhere, h'.anywhere⟩
  · exact ⟨c, rest ++ d :: rest', rfl, ne⟩
  · intro behind lexemes here lays
    rw [List.append_assoc, lexemesAll_append, List.append_assoc]
    exact h.lays _ _ apart (h'.lays behind lexemes here lays)

/-- A piece and one that starts with a character which may follow it. -/
theorem followed {c : Char} {rest : List Char} (h : Draws ends text bs) (apart : ends c)
    (h' : Draws ends' (c :: rest) bs') : Draws ends' (text ++ c :: rest) (bs ++ bs') :=
  h.append h' (by simpa using apart)

theorem blank (h : Draws ends text bs) : Draws ends (' ' :: text) bs :=
  ⟨h.nested, h.anywhere, ⟨' ', text, rfl, by decide⟩, fun behind lexemes here lays =>
    .blank (h.lays behind lexemes here lays)⟩

/-- A blank behind a piece ends it, whatever comes then. -/
theorem spaced (h : Draws ends text bs) (space : ends ' ') : Draws anyChar (text ++ [' ']) bs := by
  obtain ⟨c, rest, rfl, ne⟩ := h.start
  constructor
  · exact h.nested
  · exact h.anywhere
  · exact ⟨c, rest ++ [' '], rfl, ne⟩
  · intro behind lexemes _ lays
    rw [List.append_assoc]
    refine h.lays (' ' :: behind) lexemes ?_ (.blank lays)
    intro c hc
    cases hc
    exact space

theorem of_lexeme {lexeme : Lexeme} (plain : lexeme.Plain) (anywhere : lexeme.Anywhere)
    (start : ∃ c rest, text = c :: rest ∧ c ≠ '=')
    (spelled : ∀ behind, (∀ c ∈ behind.head?, ends c) → lexeme.Spelled text behind) :
    Draws ends text [.leaf lexeme] :=
  ⟨⟨plain, trivial⟩, by simpa [lexemesAll, Bare.lexemes] using anywhere, start,
    fun behind _ here lays => .lexeme (spelled behind here) lays⟩

end Draws

/-! ## Signs and brackets -/

/-- Whether a symbol is a bracket or a semicolon, which mean something apart from expressions. -/
def Symbol.isSign : Symbol → Bool
  | .semicolon | .opening _ | .closing _ => false
  | _ => true

theorem anywhere_of_isSign {symbol : Symbol} (h : symbol.isSign) :
    (Lexeme.symbol symbol).Anywhere := by
  intro last line
  cases symbol with
  | semicolon => cases h
  | _ => trivial

@[simp] theorem anywhere_opening (bracket : Bracket) :
    (Lexeme.symbol (.opening bracket)).Anywhere := fun _ _ => trivial

@[simp] theorem anywhere_closing (bracket : Bracket) :
    (Lexeme.symbol (.closing bracket)).Anywhere := fun _ _ => trivial

theorem plain_of_isSign {symbol : Symbol} (h : symbol.isSign) : (Lexeme.symbol symbol).Plain := by
  intro bracket
  constructor
  · rintro ⟨⟩
    cases h
  · rintro ⟨⟩
    cases h

namespace Draws

variable {ends : Char → Prop} {text : List Char} {bs : List Bare} {symbol : Symbol}

/-- A sign between two blanks. -/
theorem sign {written : List Char} (sign : symbol.isSign) (h : symbol.Written written) :
    Draws anyChar (' ' :: (written ++ [' '])) [.leaf (.symbol symbol)] := by
  constructor
  · exact ⟨plain_of_isSign sign, trivial⟩
  · simpa [lexemesAll, Bare.lexemes] using anywhere_of_isSign sign
  · exact ⟨' ', _, rfl, by decide⟩
  · intro behind lexemes _ lays
    rw [List.cons_append, List.append_assoc]
    refine .blank (.lexeme (.symbol h ?_) (.blank lays))
    intro c hc next found
    cases hc
    cases found

/-- A sign that makes no comparison with what may follow it. -/
theorem mark (c : Char) {symbol : Symbol} (h : Symbol.ofChar? c = some symbol) (sign : symbol.isSign)
    (ne : c ≠ '=')
    (apart : ∀ d, ends d → ∀ next, Symbol.ofChar? d = some next → symbol.pair? next = none) :
    Draws ends [c] [.leaf (.symbol symbol)] :=
  .of_lexeme (plain_of_isSign sign) (anywhere_of_isSign sign) ⟨c, [], rfl, ne⟩ fun _ here =>
    .symbol (.single h) fun d hd => apart d (here d hd)

theorem parens (h : Draws ends text bs) (closes : ends ')') :
    Draws anyChar ('(' :: (text ++ [')'])) [.group .paren bs] := by
  constructor
  · exact ⟨h.nested, trivial⟩
  · simpa [lexemesAll, Bare.lexemes, or_imp, forall_and] using h.anywhere
  · exact ⟨'(', _, rfl, by decide⟩
  · intro behind lexemes _ lays
    have closed := lays_bracket (c := ')') rfl ⟨.paren, .inr rfl⟩ lays
    have inside := h.lays _ _ (by simpa using closes) closed
    have opened := lays_bracket (c := '(') rfl ⟨.paren, .inl rfl⟩ inside
    simpa [lexemesAll, Bare.lexemes] using opened

theorem unit : Draws anyChar ['(', ')'] [.group .paren []] := by
  constructor
  · exact ⟨trivial, trivial⟩
  · simp [lexemesAll, Bare.lexemes]
  · exact ⟨'(', _, rfl, by decide⟩
  · intro behind lexemes _ lays
    exact lays_bracket rfl ⟨.paren, .inl rfl⟩ (lays_bracket rfl ⟨.paren, .inr rfl⟩ lays)

end Draws

/-- Runs of tokens with commas between them. -/
def commas (runs : List (List Bare)) : List Bare := List.intercalate [.leaf (.symbol .comma)] runs

/-- Pieces with a comma and a blank between two of them. -/
theorem Draws.join {α : Type} {ends : Char → Prop} (comma : ends ',') {text : α → List Char}
    {run : α → List Bare} {items : List α} (h : ∀ x ∈ items, Draws ends (text x) (run x))
    (some_item : items ≠ []) :
    Draws ends (List.intercalate [',', ' '] (items.map text)) (commas (items.map run)) := by
  induction items with
  | nil => exact absurd rfl some_item
  | cons first rest ih =>
    have here := h first (List.mem_cons_self ..)
    cases rest with
    | nil => simpa [commas] using here
    | cons next rest =>
      have later := ih (fun x hx => h x (List.mem_cons_of_mem _ hx)) (List.cons_ne_nil _ _)
      have comma_mark : Draws anyChar [','] [.leaf (.symbol .comma)] :=
        .mark ',' rfl rfl (by decide) fun _ _ _ _ => rfl
      have joined := here.append ((comma_mark.spaced trivial).append later fun _ _ => trivial) (by simpa using comma)
      simpa [commas] using joined

/-! ## Names, texts and numbers -/

theorem Draws.name {name : String} (h : IsName name) : Draws breaks name.toList [.leaf (.name name)] := by
  refine .of_lexeme (fun _ => ⟨nofun, nofun⟩) (fun _ _ => trivial) ?_ fun _ ends => spelled_name h ends
  obtain ⟨c, rest, rfl, alphabetic, -⟩ := h
  refine ⟨c, rest, String.toList_ofList, ?_⟩
  rintro rfl
  exact absurd alphabetic (by decide)

theorem Draws.text {value : String} (h : '"' ∉ value.toList) :
    Draws anyChar ("\"" ++ value ++ "\"").toList [.leaf (.text value)] :=
  .of_lexeme (fun _ => ⟨nofun, nofun⟩) (fun _ _ => trivial) ⟨'"', _, by simp; rfl, by decide⟩
    fun behind _ => spelled_text h behind

theorem Draws.decimal {n : Nat} (h : n < 0x80000000) :
    Draws breaksNumber (toString n).toList [.leaf (.int (Int32.ofNat n))] := by
  refine .of_lexeme (fun _ => ⟨nofun, nofun⟩) (fun _ _ => trivial) ?_ fun _ ends => spelled_decimal h ends
  rw [Nat.toString_eq_ofList_toDigits, String.toList_ofList]
  obtain ⟨c, rest, eq⟩ := List.exists_cons_of_ne_nil (Nat.toDigits_ne_nil (b := 10) (n := n))
  refine ⟨c, rest, eq, ?_⟩
  rintro rfl
  have digit := Nat.isDigit_of_mem_toDigits (b := 10) (by decide) (by decide)
    (eq ▸ List.mem_cons_self .. : '=' ∈ Nat.toDigits 10 n)
  exact absurd digit (by decide)

theorem Draws.hex (value : UInt32) :
    Draws breaks ("0x" ++ Text.hexDigits value.toNat).toList [.leaf (.hex value)] :=
  .of_lexeme (fun _ => ⟨nofun, nofun⟩) (fun _ _ => trivial) ⟨'0', _, by simp; rfl, by decide⟩
    fun _ ends => spelled_hex value ends

end WindowedClosures
