import WindowedClosures.Proofs.Token.Bare

/-!
# Texts put together

Two texts with a line end between them have the tokens of the first and then those of the second,
which are moved on by the bytes and lines in front of them. So nothing that was read before a line
end changes what is read behind it: a spelling ends at the line end, no lexeme has started on the
new line, and the brackets of each text are matched within it.
-/

namespace WindowedClosures

/-! ## Tokens moved on -/

def Span.shifted (bytes : Nat) (s : Span) : Span := ⟨s.start + bytes, s.stop + bytes⟩

theorem Span.shifted_merge (bytes : Nat) (a b : Span) :
    (a.merge b).shifted bytes = (a.shifted bytes).merge (b.shifted bytes) := by
  simp only [Span.shifted, Span.merge, Nat.add_min_add_right, Nat.add_max_add_right]

mutual

/-- A token with everything in it, moved on by some bytes and lines. -/
def Token.shifted (bytes lines : Nat) : Token → Token
  | .leaf lexeme span line => .leaf lexeme (span.shifted bytes) (line + lines)
  | .group bracket children span line =>
    .group bracket (shiftedAll bytes lines children) (span.shifted bytes) (line + lines)

def shiftedAll (bytes lines : Nat) : List Token → List Token
  | [] => []
  | t :: rest => t.shifted bytes lines :: shiftedAll bytes lines rest

end

section

variable {bytes lines : Nat}

theorem shiftedAll_append (a b : List Token) :
    shiftedAll bytes lines (a ++ b) = shiftedAll bytes lines a ++ shiftedAll bytes lines b := by
  induction a with
  | nil => rfl
  | cons t rest ih => simp [shiftedAll, ih]

/-- A row that is moved on nests to its trees moved on. -/
theorem Nests.shifted {flat trees : List Token} (h : Nests flat trees) :
    Nests (shiftedAll bytes lines flat) (shiftedAll bytes lines trees) := by
  induction h with
  | nil => exact .nil
  | leaf plain _ ih => exact .leaf plain ih
  | group _ _ inner_ih ih =>
    simp only [shiftedAll, Token.shifted, shiftedAll_append, Span.shifted_merge]
    exact .group inner_ih ih

theorem Lexeme.begins_shifted {lexeme : Lexeme} {last : Option Nat} {line : Nat}
    (h : lexeme.Begins last line) : lexeme.Begins (last.map (· + lines)) (line + lines) := by
  unfold Lexeme.Begins at h ⊢
  split at h
  · intro same
    cases last with
    | none => cases same
    | some before => exact h (by simpa using same)
  · rw [h, Option.map_some]
  · trivial

/-- A text is read in the same way further on. -/
theorem Scans.shifted {last : Option Nat} {line offset : Nat} {text : List Char}
    {tokens : List Token} (h : Scans last line offset text tokens) :
    Scans (last.map (· + lines)) (line + lines) (offset + bytes) text
      (shiftedAll bytes lines tokens) := by
  induction h with
  | done => exact .done
  | blank blank _ ih =>
    refine .blank blank ?_
    rwa [Nat.add_right_comm, Nat.add_right_comm _ bytes]
  | @lexeme last line offset lexeme written text tokens spelled begins _ ih =>
    have place : (⟨offset, offset + byteLength written⟩ : Span).shifted bytes =
        ⟨offset + bytes, offset + bytes + byteLength written⟩ := by
      rw [Span.shifted, Nat.add_right_comm]
    rw [shiftedAll, Token.shifted, place]
    refine .lexeme spelled (Lexeme.begins_shifted begins) ?_
    rwa [Nat.add_right_comm, Nat.add_right_comm _ bytes]

end

/-! ## At a line end -/

/-- A text that is read from the start is read in the same way behind lines on which lexemes
start. -/
theorem Scans.behind {line offset : Nat} {text : List Char} {tokens : List Token}
    (h : Scans none line offset text tokens) {last : Option Nat} (past : ∀ l ∈ last, l < line) :
    Scans last line offset text tokens := by
  generalize nothing : (none : Option Nat) = before at h
  induction h with
  | done => exact .done
  | blank blank _ ih =>
    exact .blank blank (ih (fun l hl => Nat.lt_add_right _ (past l hl)) nothing)
  | @lexeme before line offset lexeme written text tokens spelled begins more =>
    subst nothing
    refine .lexeme spelled ?_ more
    unfold Lexeme.Begins at begins ⊢
    split at begins
    · intro same
      exact Nat.lt_irrefl line (past line same)
    · cases begins
    · trivial

theorem mem_head?_append {behind more : List Char} {c d : Char}
    (h : d ∈ (behind ++ c :: more).head?) : d ∈ behind.head? ∨ d = c := by
  cases behind with
  | nil => exact .inr (by simpa [eq_comm] using h)
  | cons first rest => exact .inl h

/-- A line end behind a spelling does not continue it. -/
theorem Lexeme.Spelled.ends {lexeme : Lexeme} {written behind : List Char}
    (h : lexeme.Spelled written behind) (more : List Char) :
    lexeme.Spelled written (behind ++ '\n' :: more) := by
  cases h with
  | text no_quote => exact .text no_quote
  | comment no_newline ends =>
    refine .comment no_newline fun d hd => ?_
    exact (mem_head?_append hd).elim (ends d) id
  | name alphabetic all stops =>
    refine .name alphabetic all fun d hd => ?_
    rcases mem_head?_append hd with hd | rfl
    · exact stops d hd
    · decide
  | @number n _ _ formed ends value =>
    refine .number formed ?_ value
    cases n with
    | hex digits =>
      intro d hd
      rcases mem_head?_append hd with hd | rfl
      · exact ends d hd
      · decide
    | int digits =>
      intro d hd
      rcases mem_head?_append hd with hd | rfl
      · exact ends d hd
      · exact ⟨by decide, by decide, fun _ => by decide⟩
    | float whole fraction =>
      intro d hd
      rcases mem_head?_append hd with hd | rfl
      · exact ends d hd
      · decide
  | symbol spelled apart =>
    refine .symbol spelled fun d hd next found => ?_
    rcases mem_head?_append hd with hd | rfl
    · exact apart d hd next found
    · cases found

/-- A text, a line end, and another text, of which it does not matter where lexemes have started on
the lines above. -/
theorem Scans.join {last : Option Nat} {line offset : Nat} {text more : List Char}
    {tokens others : List Token} (h : Scans last line offset text tokens)
    (past : ∀ l ∈ last, l ≤ line)
    (next : ∀ before : Option Nat, (∀ l ∈ before, l < line + text.count '\n' + 1) →
      Scans before (line + text.count '\n' + 1) (offset + byteLength text + 1) more others) :
    Scans last line offset (text ++ '\n' :: more) (tokens ++ others) := by
  induction h with
  | done => exact .blank (by decide) (next _ fun l hl => Nat.lt_succ_of_le (past l hl))
  | @blank last line offset c text tokens blank _ ih =>
    refine .blank blank (ih (fun l hl => Nat.le_add_right_of_le (past l hl)) ?_)
    rw [Nat.add_assoc line, ← List.count_append, List.singleton_append, Nat.add_assoc offset,
      ← byteLength_cons]
    exact next
  | @lexeme last line offset lexeme written text tokens spelled begins _ ih =>
    rw [List.append_assoc, List.cons_append]
    refine .lexeme (spelled.ends more) begins (ih ?_ ?_)
    · rintro l ⟨⟩
      exact Nat.le_add_right ..
    · rw [Nat.add_assoc line, ← List.count_append, Nat.add_assoc offset, ← byteLength_append]
      exact next

/-- The tokens of two texts with a line end between them. -/
theorem tokenize_append_line {a b : String} {x y : List Token} (ha : tokenize a = .ok x)
    (hb : tokenize b = .ok y) : tokenize (a ++ "\n" ++ b) =
      .ok (x ++ shiftedAll (a.utf8ByteSize + 1) (a.toList.count '\n' + 1) y) := by
  obtain ⟨flat, scans, nests⟩ := tokenize_eq_ok_iff.mp ha
  obtain ⟨others, more, later⟩ := tokenize_eq_ok_iff.mp hb
  refine tokenize_eq_ok_iff.mpr ⟨flat ++ shiftedAll (a.utf8ByteSize + 1)
    (a.toList.count '\n' + 1) others, ?_, nests.append later.shifted⟩
  have text : (a ++ "\n" ++ b).toList = a.toList ++ '\n' :: b.toList := by simp
  rw [text]
  refine scans.join nofun fun before past => ?_
  have moved : Scans none (1 + (a.toList.count '\n' + 1)) (0 + (a.utf8ByteSize + 1)) b.toList
    (shiftedAll (a.utf8ByteSize + 1) (a.toList.count '\n' + 1) others) := more.shifted
  rw [← Nat.add_assoc, ← Nat.add_assoc, ← byteLength_toList] at moved
  rw [← byteLength_toList]
  exact moved.behind past

/-- A text over two lines, then a comment and a group that starts on one line and ends on the
next. -/
theorem tokenize_append_line_comment : ∃ x y, tokenize "é = \"p\nq\"" = .ok x ∧
    tokenize "; r\n(s;\n)" = .ok y ∧
    tokenize ("é = \"p\nq\"" ++ "\n" ++ "; r\n(s;\n)") = .ok (x ++ shiftedAll 11 2 y) := by
  have first : ((tokenize "é = \"p\nq\"").toOption).isSome := by decide +kernel
  have second : ((tokenize "; r\n(s;\n)").toOption).isSome := by decide +kernel
  obtain ⟨x, hx⟩ := Option.isSome_iff_exists.mp first
  obtain ⟨y, hy⟩ := Option.isSome_iff_exists.mp second
  have hx := toOption_eq_some hx
  have hy := toOption_eq_some hy
  exact ⟨x, y, hx, hy, tokenize_append_line hx hy⟩

end WindowedClosures
