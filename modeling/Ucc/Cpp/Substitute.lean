/-
  Cpp/Substitute.lean --- what a macro's body stands for, and what `eval_func_macro` writes.

  Source: `eval_func_macro`, `noeval_hash` and `find_arg` of src/cpp2/eval.c.

  The first part is C11 6.10.3.1 to 6.10.3.3 over preprocessing tokens: `items` reads
  `#` and `##` off the body, and `partsOf` says what each item stands for.  A number or
  a literal stands for itself.  The program goes through tokens of its own and writes a
  text, so the second part asks for what the two have in common: no parameter's name
  inside a number or a literal, operands that `tokens_join` has not respelled, and parts
  that do not go on in each other.
-/
import Ucc.Cpp.BodyTokens
import Ucc.Cpp.Eval
import Ucc.Cpp.Stringise

set_option autoImplicit false

namespace Ucc.Cpp

open Ucc.Lib

/-! ## What a body asks for -/

/-- The spellings of a text's tokens. -/
def spelled (s : Text) : List Text := (ppTokens s).map PpToken.spelling

/-- `#` and its operand, or operands of `##`; a token that is neither stands alone. -/
inductive BodyItem where
  | stringise (blank : Bool) (operand : PpToken)
  | paste (first : PpToken) (others : List PpToken)
  deriving DecidableEq, Repr

/-- The operands of a run of `##`, and what is behind them. -/
def chain : List PpToken → List PpToken × List PpToken
  | t :: u :: ts => if t.isJoin then (u :: (chain ts).1, (chain ts).2) else ([], t :: u :: ts)
  | ts => ([], ts)

/-- The items of a body, unless an operand is missing; `n` is at least the number of tokens. -/
def items : Nat → List PpToken → Option (List BodyItem)
  | 0, _ => some []
  | _ + 1, [] => some []
  | n + 1, t :: ts =>
      if t.isJoin then none
      else if t.isHash then
        match ts with
        | [] => none
        | u :: ts => (items n ts).map fun its => .stringise t.blank u :: its
      else (items n (chain ts).2).map fun its => .paste t (chain ts).1 :: its

/-- The argument that a token of the body stands for. -/
def argument (m : Macro) (args : List Text) (t : PpToken) : Option Text :=
  if t.kind = .identifier then
    if t.spelling = vaArgsStr then if m.type = .variadic then some (vaArgs m args) else none
    else (m.args.zip args).lookup t.spelling
  else none

/-- What is behind `k` commas that no parentheses enclose. -/
def behindCommas : Nat → Int → List PpToken → List PpToken
  | 0, _, ts => ts
  | _ + 1, _, [] => []
  | k + 1, nest, t :: ts =>
      if t.spelling = ['('] then behindCommas (k + 1) (nest + 1) ts
      else if t.spelling = [')'] then behindCommas (k + 1) (nest - 1) ts
      else if t.spelling = [','] ∧ nest = 0 then behindCommas k nest ts
      else behindCommas (k + 1) nest ts

/-- The tokens that `#` quotes; the commas between variable arguments belong to them. -/
def hashTokens (m : Macro) (args : List Text) (argsStr : Text) (t : PpToken) :
    Option (List PpToken) :=
  (argument m args t).map fun a =>
    if t.spelling = vaArgsStr then behindCommas m.args.length 0 (ppTokens argsStr)
    else ppTokens a

/-- Tokens in a row, with one blank for the white space in front of each but the first. -/
def written (f : PpToken → Text) : List PpToken → Text
  | [] => []
  | t :: ts => f t ++ ts.flatMap fun u => (if u.blank then [' '] else []) ++ f u

/-- The spelling inside a string: only literals are escaped. -/
def escaped (t : PpToken) : Text :=
  if t.kind = .literal then t.spelling.flatMap escapeChar else t.spelling

/-- The string of 6.10.3.2. -/
def stringised (ts : List PpToken) : Text := '"' :: (written escaped ts ++ ['"'])

/-- The operand of `##`. -/
def operand (m : Macro) (args : List Text) (t : PpToken) : Text :=
  (argument m args t).getD t.spelling

/-- The last token of `xs` and the first of `ys` become one. -/
def pasteTwo (xs ys : List Text) : List Text :=
  match xs.getLast?, ys with
  | some x, y :: ys => xs.dropLast ++ (x ++ y) :: ys
  | _, _ => xs ++ ys

def pasted (ws : List (List Text)) : List Text := ws.foldl pasteTwo []

/-- What stands for an item: its text, and the tokens that this is to be read as. -/
structure Part where
  blank : Bool
  text : Text
  tokens : List Text
  deriving DecidableEq, Repr

def partOf (rescan : Rescan) (m : Macro) (args : List Text) (argsStr : Text) (st : EvalState) :
    BodyItem → EvalM (EvalState × Part)
  | .stringise blank t =>
      match hashTokens m args argsStr t with
      | none => .die (.badInvocation m.nam)
      | some ts => pure (st, ⟨blank, stringised ts, [stringised ts]⟩)
  | .paste t [] =>
      match argument m args t with
      | none => pure (st, ⟨t.blank, t.spelling, [t.spelling]⟩)
      | some a => do
          let (st, word) ← expandArg rescan st a
          pure (st, ⟨t.blank, word, spelled word⟩)
  | .paste t (u :: us) =>
      let ws := (t :: u :: us).map (operand m args)
      pure (st, ⟨t.blank, ws.flatten, pasted (ws.map spelled)⟩)

/-- The parts in order; an argument is expanded where it is written. -/
def partsOf (rescan : Rescan) (m : Macro) (args : List Text) (argsStr : Text) :
    EvalState → List BodyItem → EvalM (EvalState × List Part)
  | st, [] => pure (st, [])
  | st, it :: its => do
      let (st, p) ← partOf rescan m args argsStr st it
      let (st, ps) ← partsOf rescan m args argsStr st its
      pure (st, p :: ps)

/-- The text `r.2` has the tokens that the body `val` stands for. -/
def Substituted (rescan : Rescan) (m : Macro) (args : List Text) (argsStr val : Text)
    (st : EvalState) (r : EvalState × Text) : Prop :=
  ∃ its parts, items (ppTokens val).length (ppTokens val) = some its ∧
    partsOf rescan m args argsStr st its = pure (r.1, parts) ∧
    spelled r.2 = parts.flatMap Part.tokens

/-! ## Where the program does the same -/

/-- The name is written `__VA_ARGS__` in a variadic macro only. -/
def variableOk (m : Macro) (t : PpToken) : Bool :=
  t.spelling != vaArgsStr || m.type == .variadic

/-- The token of the program's own is copied. -/
def inert (m : Macro) (t : Token) : Bool :=
  t.tok != .hashQuote && t.tok != .hashJoin &&
    (t.tok != .word || t.w != vaArgsStr && !m.args.contains t.w)

/-- No name that is replaced, no `#` and no run of blanks within the spelling. -/
def frozenOk (m : Macro) (w : Text) : Bool :=
  match tokenise w with
  | .ok ts => tokensJoin ts == w && ts.all (inert m)
  | .error _ => false

def tokenOk (m : Macro) (t : PpToken) : Bool :=
  match t.kind with
  | .identifier => variableOk m t
  | .symbol => true
  | .number | .literal => frozenOk m t.spelling

/-- The operand of `#`, or one that `##` stands in front of. -/
def operandOk (m : Macro) (t : PpToken) : Bool := t.kind != .literal && variableOk m t

/-- The argument is spelled with single blanks, and only its literals need escapes. -/
def quotedOk (ts : List PpToken) (a : Text) : Bool :=
  written PpToken.spelling ts == a &&
    ts.all fun t => t.kind == .literal || t.spelling.flatMap escapeChar == t.spelling

def itemOk (m : Macro) (args : List Text) (argsStr : Text) : BodyItem → Bool
  | .stringise _ t =>
      operandOk m t &&
        match hashTokens m args argsStr t, argument m args t with
        | some ts, some a => quotedOk ts a
        | _, _ => true
  | .paste t [] => tokenOk m t
  | .paste t (u :: us) =>
      let ws := (t :: u :: us).map (operand m args)
      tokenOk m t && (u :: us).all (operandOk m) && spelled ws.flatten == pasted (ws.map spelled)

/-- The white space that `APPEND` writes. -/
def gap (replace : Text) (ws : Bool) : Text := if ws && !replace.isEmpty then [' '] else []

/-- No part goes on in the next one. -/
def separate : Text → List Part → Bool
  | _, [] => true
  | replace, p :: ps =>
      meets replace (gap replace p.blank ++ p.text) &&
        separate (appendTok replace p.blank p.text) ps

/-- The parts, written one behind the other. -/
def rendered (replace : Text) (parts : List Part) : Text :=
  parts.foldl (fun replace p => appendTok replace p.blank p.text) replace

/-- The parts of `val` do not run together, nor into the white space at its end. -/
def partsOk (val : Text) : EvalM (EvalState × List Part) → Bool
  | some (.ok (_, parts)) =>
      separate [] parts && (!val.getLast?.any isSpace || meets (rendered [] parts) [' '])
  | _ => true

/-- The condition under which a body is substituted as C11 has it. -/
def substitutes (rescan : Rescan) (m : Macro) (args : List Text) (argsStr val : Text)
    (st : EvalState) : Bool :=
  match items (ppTokens val).length (ppTokens val) with
  | none => false
  | some its =>
      its.all (itemOk m args argsStr) && partsOk val (partsOf rescan m args argsStr st its)

/-! ## Words and arguments -/

section

variable {rescan : Rescan} {m : Macro} {args : List Text} {argsStr : Text}

theorem paramArg_eq {ps as : List Text} (hlen : ps.length ≤ as.length) (w : Text) :
    paramArg ps as w = .ok ((ps.zip as).lookup w) := by
  induction ps generalizing as with
  | nil => rfl
  | cons p ps ih =>
    cases as with
    | nil => simp at hlen
    | cons a as =>
      rw [paramArg, List.zip_cons_cons, List.lookup_cons]
      by_cases hp : p = w
      · subst hp
        simp
      · rw [if_neg hp, beq_false_of_ne (Ne.symm hp)]
        exact ih (by simpa using hlen)

theorem paramArg_none {ps : List Text} {w : Text} (hw : w ∉ ps) (as : List Text) :
    paramArg ps as w = .ok none := by
  induction ps generalizing as with
  | nil => rfl
  | cons p ps ih =>
    obtain ⟨hp, hps⟩ : w ≠ p ∧ w ∉ ps := by simpa using hw
    unfold paramArg
    rw [if_neg (Ne.symm hp)]
    exact ih hps _

/-- `find_arg` on an identifier of the body. -/
theorem findArg_identifier (hlen : m.args.length ≤ args.length) {t : PpToken}
    (hkind : t.kind = .identifier) (hok : variableOk m t = true) :
    findArg m t.spelling args = .ok (argument m args t) := by
  unfold findArg argument
  rw [if_pos hkind]
  by_cases hva : t.spelling = vaArgsStr
  · have hvariadic : m.type = .variadic := by simpa [variableOk, hva] using hok
    rw [if_pos hva, if_pos hva, if_pos hvariadic]
  · rw [if_neg hva, if_neg hva, paramArg_eq hlen]

theorem findArg_inert {t : Token} (h : inert m t = true) (hword : t.tok = .word) :
    findArg m t.w args = .ok none := by
  obtain ⟨hva, hargs⟩ : t.w ≠ vaArgsStr ∧ t.w ∉ m.args := by simpa [inert, hword] using h
  unfold findArg
  rw [if_neg hva, paramArg_none hargs]

/-! ## Tokens that are copied -/

/-- `APPEND` of a token. -/
def appendToken (replace : Text) (t : Token) : Text :=
  appendTok replace t.hadWhitespace (tokenStr t)

theorem appendTok_append (replace : Text) (ws : Bool) (a b : Text) :
    appendTok replace ws a ++ b = appendTok replace ws (a ++ b) := List.append_assoc ..

theorem evalTokens_inert {t : Token} (h : inert m t = true) {ts : List Token}
    (hnext : t.tok = .word → ts.head?.map Token.tok ≠ some .hashJoin) (n : Nat) (st : EvalState)
    (replace : Text) :
    evalTokens rescan m args (n + 1) st replace (t :: ts) =
      evalTokens rescan m args n st (appendToken replace t) ts := by
  have hhash : t.tok ≠ .hashQuote ∧ t.tok ≠ .hashJoin := by
    simp only [inert, Bool.and_eq_true, bne_iff_ne] at h
    exact h.1
  rw [evalTokens]
  cases htok : t.tok with
  | hashQuote => exact absurd htok hhash.1
  | hashJoin => exact absurd htok hhash.2
  | word =>
    have hstr : tokenStr t = t.w := by simp [tokenStr, htok]
    simp only [appendToken, hstr]
    rw [if_neg (hnext htok), findArg_inert h htok]
    rfl
  | _ => rfl

theorem foldl_appendToken {w : Text} {blank : Bool} {tw : List Token} (h : WrittenAs w blank tw)
    (replace : Text) : tw.foldl appendToken replace = appendTok replace blank w := by
  obtain ⟨t, tl, rfl, rfl, hne, rfl⟩ := h
  have hrest : ∀ (tl : List Token) (r : Text), r ≠ [] →
      tl.foldl appendToken r = r ++ tokensJoin tl := by
    intro tl
    induction tl with
    | nil => simp [tokensJoin]
    | cons u tl ih =>
      intro r hr
      have hfull : r.isEmpty = false := by simpa using hr
      rw [List.foldl_cons, ih _ (by simp [appendToken, appendTok, hr])]
      simp [appendToken, appendTok, tokensJoin, hfull]
  rw [List.foldl_cons, hrest tl _ (by simp [appendToken, appendTok, hne]), appendToken,
    appendTok_append]

theorem evalTokens_copy {tw : List Token} (h : ∀ t ∈ tw, inert m t = true) {ts : List Token}
    (hnext : ts.head?.map Token.tok ≠ some .hashJoin) (n : Nat) (st : EvalState)
    (replace : Text) :
    evalTokens rescan m args (n + tw.length) st replace (tw ++ ts) =
      evalTokens rescan m args n st (tw.foldl appendToken replace) ts := by
  induction tw generalizing replace with
  | nil => rfl
  | cons t tw ih =>
    have hhead : (tw ++ ts).head?.map Token.tok ≠ some .hashJoin := by
      cases tw with
      | nil => exact hnext
      | cons u tw =>
        have hu := h u (by simp)
        simp only [inert, Bool.and_eq_true, bne_iff_ne] at hu
        simpa using hu.1.2
    rw [List.length_cons, ← Nat.add_assoc, List.cons_append,
      evalTokens_inert (h t List.mem_cons_self) fun _ => hhead]
    exact ih (fun u hu => h u (List.mem_cons_of_mem _ hu)) _

/-! ## Runs of `##` -/

theorem hashJoins_none {ts : List Token} (h : ts.head?.map Token.tok ≠ some .hashJoin)
    (word : Text) : hashJoins m args word ts = .ok (word, ts) := by
  cases ts with
  | nil => rfl
  | cons t ts =>
    have ht : t.tok ≠ .hashJoin := by simpa using h
    cases ts with
    | nil => rw [hashJoins, if_neg ht]
    | cons u ts => rw [hashJoins, if_neg ht]

theorem evalTokens_word {t : Token} (htok : t.tok = .word) {ts : List Token}
    (hjoin : ts.head?.map Token.tok = some .hashJoin) {a : Option Text}
    (harg : findArg m t.w args = .ok a) {n : Nat} {st : EvalState} {replace : Text}
    {r : EvalState × Text} (h : evalTokens rescan m args (n + 1) st replace (t :: ts) = pure r) :
    ∃ word ts', hashJoins m args (a.getD t.w) ts = .ok (word, ts') ∧
      evalTokens rescan m args n st (appendTok replace t.hadWhitespace word) ts' = pure r := by
  have hfirst : noevalHash m args false (some t) = .ok (a.getD t.w) := by
    simp only [noevalHash, htok, harg]
    cases a <;> rfl
  rw [evalTokens, htok] at h
  dsimp only at h
  rw [if_pos hjoin, hfirst, Partial.bind_eq_pure] at h
  obtain ⟨first, hone, h⟩ := h
  obtain rfl := Except.ok.inj (Partial.ofExcept_eq_pure.mp hone)
  rw [Partial.bind_eq_pure] at h
  obtain ⟨⟨word, ts'⟩, hjoins, h⟩ := h
  exact ⟨word, ts', Partial.ofExcept_eq_pure.mp hjoins, h⟩

theorem noevalHash_ok {needArg : Bool} {t : Token} {w : Text}
    (h : noevalHash m args needArg (some t) = .ok w) :
    t.tok = .word ∧ ∃ a, findArg m t.w args = .ok a ∧ (needArg = true → a.isSome = true) ∧
      w = a.getD t.w := by
  unfold noevalHash at h
  dsimp only at h
  split at h
  · cases h
  · rename_i hword
    refine ⟨by simpa using hword, ?_⟩
    cases hfind : findArg m t.w args with
    | error f =>
      rw [hfind] at h
      cases h
    | ok a =>
      rw [hfind] at h
      cases a with
      | some a =>
        obtain rfl : a = w := Except.ok.inj h
        exact ⟨some a, rfl, fun _ => rfl, rfl⟩
      | none =>
        cases needArg with
        | true => cases h
        | false =>
          obtain rfl : t.w = w := Except.ok.inj h
          exact ⟨none, rfl, fun hneed => (Bool.noConfusion hneed), rfl⟩

/-- A word of the program's that is no part of a literal is an identifier. -/
theorem identifier_of_word {c : Char} {s : Text} {kind : PpKind} {w rest w' rest' : Text}
    (hread : ppRead c s = (kind, w)) (hsplit : c :: s = w ++ rest) (hkind : kind ≠ .literal)
    (hone : readToken c s = .ok (.word, w', rest')) :
    kind = .identifier ∧ w' = w ∧ rest' = rest := by
  have hword := isWordStart_of_readToken hone
  have hident : kind = .identifier := by
    rw [ppRead_word hword] at hread
    unfold ppWord at hread
    split at hread
    · split at hread
      · exact absurd (Prod.mk.inj hread).1.symm hkind
      · exact (Prod.mk.inj hread).1.symm
    · exact (Prod.mk.inj hread).1.symm
  subst hident
  have hword' := (ppRead_identifier hread hsplit).2
  cases hone.symm.trans hword'
  exact ⟨rfl, rfl, rfl⟩

theorem chain_none {pts : List PpToken} (h : pts.head?.any PpToken.isJoin = false) :
    chain pts = ([], pts) := by
  match pts, h with
  | [], _ => rfl
  | [t], _ => rfl
  | t :: u :: pts, h => exact if_neg (by simpa using h)

theorem chain_length (pts : List PpToken) : (chain pts).2.length ≤ pts.length := by
  match pts with
  | [] => exact le_rfl
  | [t] => exact le_rfl
  | t :: u :: pts =>
    have hrest := chain_length pts
    rw [chain]
    split
    · simp only [List.length_cons]
      omega
    · exact le_rfl

/-- The loop over `##` takes the operands that C11 has. -/
theorem hashJoins_operands (hlen : m.args.length ≤ args.length) {s : Text} {ts : List Token}
    (hts : Toks s ts) {pts : List PpToken} (hpts : PpToks s pts)
    (hok : ∀ u ∈ (chain pts).1, operandOk m u = true)
    (hend : (chain pts).2.head?.any PpToken.isJoin = false) {first word : Text}
    {ts' : List Token} (h : hashJoins m args first ts = .ok (word, ts')) :
    ∃ s', s' <:+ s ∧ Toks s' ts' ∧ PpToks s' (chain pts).2 ∧ ts'.length ≤ ts.length ∧
      word = first ++ (chain pts).1.flatMap (operand m args) := by
  by_cases hhead : pts.head?.any PpToken.isJoin = true
  · match pts, hpts with
    | [t], _ =>
      rw [chain] at hend
      · rw [hhead] at hend
        cases hend
      · simp
    | _ :: u :: pts, @PpToks.cons sp hsp c hc s₁ rest kind w hread hsplit _ hrest =>
      have hjoin : (⟨kind, w, !sp.isEmpty⟩ : PpToken).isJoin = true := by simpa using hhead
      have hcore : kind = .symbol ∧ w = ['#', '#'] := by simpa [PpToken.isJoin] using hjoin
      obtain ⟨rfl, rfl⟩ := hcore
      obtain ⟨ts₁, rfl, hts₁⟩ := hts.cons_inv hsp hc (ppRead_join hsplit)
      have hchain : chain (⟨.symbol, ['#', '#'], !sp.isEmpty⟩ :: u :: pts) =
          (u :: (chain pts).1, (chain pts).2) := if_pos hjoin
      rw [hchain] at hok hend ⊢
      cases hrest with
      | @cons sp₂ hsp₂ c₂ hc₂ s₂ rest₂ kind₂ w₂ hread₂ hsplit₂ _ hrest₂ =>
        obtain ⟨tok, w', rest', ts₂, hone, rfl, hts₂⟩ := hts₁.read hsp₂ hc₂
        rw [hashJoins, if_pos rfl] at h
        cases hnoeval : noevalHash m args false (some ⟨tok, w', !sp₂.isEmpty⟩) with
        | error f =>
          rw [hnoeval] at h
          cases h
        | ok word₁ =>
          rw [hnoeval] at h
          obtain ⟨rfl, a, hfind, -, rfl⟩ := noevalHash_ok hnoeval
          have hu := hok _ List.mem_cons_self
          simp only [operandOk, Bool.and_eq_true, bne_iff_ne] at hu
          obtain ⟨rfl, rfl, rfl⟩ := identifier_of_word hread₂ hsplit₂ hu.1 hone
          have harg := findArg_identifier (t := ⟨.identifier, w', !sp₂.isEmpty⟩) hlen rfl hu.2
          obtain rfl := Except.ok.inj (hfind.symm.trans harg)
          obtain ⟨s', hs', hts', hpts', hle, rfl⟩ :=
            hashJoins_operands hlen hts₂ hrest₂ (fun u hu => hok u (List.mem_cons_of_mem _ hu)) hend
              h
          refine ⟨s', hs'.trans ?_, hts', hpts', ?_, ?_⟩
          · have hrest : sp₂ ++ c₂ :: s₂ <:+ sp ++ c :: s₁ := by
              rw [hsplit]
              exact (List.suffix_append _ _).trans (List.suffix_append _ _)
            refine List.IsSuffix.trans ?_ hrest
            rw [hsplit₂]
            exact (List.suffix_append _ _).trans (List.suffix_append _ _)
          · simp only [List.length_cons]
            omega
          · simp [operand]
  · have hhead : pts.head?.any PpToken.isJoin = false := by simpa using hhead
    have hnone : ts.head?.map Token.tok ≠ some .hashJoin := by
      rw [Ne, head_join hts hpts, hhead]
      simp
    rw [hashJoins_none hnone] at h
    cases h
    rw [chain_none hhead]
    exact ⟨s, List.suffix_rfl, hts, hpts, le_rfl, by simp⟩
termination_by pts.length

/-! ## Strings -/

theorem literalOf_escaped (a : Text) :
    literalOf '"' (a.flatMap escapeChar ++ ['"']) = a.flatMap escapeChar ++ ['"'] := by
  induction a with
  | nil => rfl
  | cons c a ih =>
    rw [List.flatMap_cons, List.append_assoc]
    by_cases hc : c = '"' ∨ c = '\\'
    · have hesc : escapeChar c = ['\\', c] := if_pos (by simpa using hc)
      rw [hesc]
      exact congrArg ('\\' :: c :: ·) ih
    · have hesc : escapeChar c = [c] := if_neg (by simpa using hc)
      obtain ⟨hquote, hback⟩ := not_or.mp hc
      rw [hesc]
      exact (literalOf_char hback _).trans
        ((if_neg (by simpa using hquote)).trans (congrArg (c :: ·) ih))

theorem spelled_of_read {c : Char} (hc : isSpace c = false) {s w rest : Text} {kind : PpKind}
    (hread : ppRead c s = (kind, w)) (hsplit : c :: s = w ++ rest) : spelled w = [w] := by
  cases w with
  | nil =>
    have hne := (ppRead_isPrefix c s).2
    rw [hread] at hne
    exact absurd rfl hne
  | cons d v =>
    obtain ⟨rfl, rfl⟩ := List.cons.inj hsplit
    rw [spelled, ppTokens_spelling hc hread]
    rfl

theorem spelled_strQuote (a : Text) : spelled (strQuote a) = [strQuote a] := by
  have hread : ppRead '"' (a.flatMap escapeChar ++ ['"']) = (.literal, strQuote a) := by
    rw [ppRead_quote rfl, literalOf_escaped, strQuote_eq]
  have hsplit : '"' :: (a.flatMap escapeChar ++ ['"']) = strQuote a ++ [] := by
    rw [strQuote_eq, List.append_nil]
  exact spelled_of_read rfl hread hsplit

/-- Escapes in literals are escapes in the whole string. -/
theorem stringised_eq {ts : List PpToken} {a : Text} (h : quotedOk ts a = true) :
    stringised ts = strQuote a := by
  simp only [quotedOk, Bool.and_eq_true, beq_iff_eq, List.all_eq_true, Bool.or_eq_true] at h
  obtain ⟨rfl, hall⟩ := h
  have hescaped : ∀ t ∈ ts, escaped t = t.spelling.flatMap escapeChar := fun t ht => by
    unfold escaped
    split
    · rfl
    · rename_i hkind
      exact ((hall t ht).resolve_left hkind).symm
  have hwritten : written escaped ts = (written PpToken.spelling ts).flatMap escapeChar := by
    cases ts with
    | nil => rfl
    | cons t ts =>
      obtain ⟨ht, hts⟩ := List.forall_mem_cons.mp hescaped
      rw [written, written, ht, List.flatMap_append, List.flatMap_assoc]
      congr 1
      refine List.flatMap_congr fun u hu => ?_
      rw [hts u hu, List.flatMap_append]
      split <;> rfl
  rw [stringised, hwritten, strQuote_eq]

/-! ## The loop against the items -/

/-- The loop stands in front of the text `s` with the tokens `pts`, and ends with `r`. -/
def Evaluates (rescan : Rescan) (m : Macro) (args : List Text) (st : EvalState) (replace s : Text)
    (pts : List PpToken) (r : EvalState × Text) : Prop :=
  nul ∉ s ∧ PpToks s pts ∧ ∃ n ts, ts.length ≤ n ∧ Toks s ts ∧
    evalTokens rescan m args n st replace ts = pure r

/-- The loop has written the part for `it`, and stands behind it. -/
def ItemSteps (rescan : Rescan) (m : Macro) (args : List Text) (argsStr : Text) (st : EvalState)
    (replace s : Text) (it : BodyItem) (pts : List PpToken) (r : EvalState × Text) : Prop :=
  ∃ st' p s', partOf rescan m args argsStr st it = pure (st', p) ∧ spelled p.text = p.tokens ∧
    s' <:+ s ∧ Evaluates rescan m args st' (appendTok replace p.blank p.text) s' pts r

theorem suffix_behind {sp : Text} {c : Char} {s w rest : Text} (hsplit : c :: s = w ++ rest) :
    rest <:+ sp ++ c :: s := by
  rw [hsplit]
  exact (List.suffix_append _ _).trans (List.suffix_append _ _)

/-- `#` and its operand. -/
theorem steps_stringise (hlen : m.args.length ≤ args.length) {t u : PpToken} {pts : List PpToken}
    (hhash : t.isHash = true) (hok : itemOk m args argsStr (.stringise t.blank u) = true)
    {st : EvalState} {replace s : Text} {r : EvalState × Text}
    (h : Evaluates rescan m args st replace s (t :: u :: pts) r) :
    ItemSteps rescan m args argsStr st replace s (.stringise t.blank u) pts r := by
  obtain ⟨hnul, hpts, n, ts, hn, hts, hrun⟩ := h
  match hpts with
  | @PpToks.cons sp hsp c hc s₁ rest kind w hread hsplit _ hrest =>
    have hcore : kind = .symbol ∧ w = ['#'] := by simpa [PpToken.isHash] using hhash
    obtain ⟨rfl, rfl⟩ := hcore
    obtain ⟨ts₁, rfl, hts₁⟩ := hts.cons_inv hsp hc (ppRead_hash hread hsplit)
    obtain ⟨n, rfl⟩ : ∃ k, n = k + 1 := ⟨n - 1, by simp at hn; omega⟩
    match hrest with
    | @PpToks.cons sp₂ hsp₂ c₂ hc₂ s₂ rest₂ kind₂ w₂ hread₂ hsplit₂ _ hrest₂ =>
      obtain ⟨tok, w', rest', ts₂, hone, rfl, hts₂⟩ := hts₁.read hsp₂ hc₂
      rw [evalTokens] at hrun
      dsimp only [List.head?_cons, List.tail_cons] at hrun
      rw [Partial.bind_eq_pure] at hrun
      obtain ⟨word, hnoeval, hrun⟩ := hrun
      obtain ⟨rfl, a, hfind, hsome, rfl⟩ := noevalHash_ok (Partial.ofExcept_eq_pure.mp hnoeval)
      obtain ⟨a, rfl⟩ := Option.isSome_iff_exists.mp (hsome rfl)
      simp only [itemOk, Bool.and_eq_true, operandOk, bne_iff_ne] at hok
      obtain ⟨⟨hlit, hvar⟩, hquoted⟩ := hok
      obtain ⟨rfl, rfl, rfl⟩ := identifier_of_word hread₂ hsplit₂ hlit hone
      have harg := findArg_identifier (t := ⟨.identifier, w', !sp₂.isEmpty⟩) hlen rfl hvar
      have harg := (Except.ok.inj (hfind.symm.trans harg)).symm
      obtain ⟨toks, htoks⟩ : ∃ toks,
          hashTokens m args argsStr ⟨.identifier, w', !sp₂.isEmpty⟩ = some toks := by
        unfold hashTokens
        rw [harg]
        exact ⟨_, rfl⟩
      rw [htoks, harg] at hquoted
      have hstr := stringised_eq hquoted
      refine ⟨st, ⟨!sp.isEmpty, strQuote a, [strQuote a]⟩, rest', ?_, spelled_strQuote a, ?_, ?_⟩
      · rw [partOf, htoks, ← hstr]
      · exact (suffix_behind hsplit₂).trans (suffix_behind hsplit)
      · have hsuffix : rest' <:+ sp ++ c :: s₁ :=
          (suffix_behind hsplit₂).trans (suffix_behind hsplit)
        refine ⟨fun hm => hnul (hsuffix.subset hm), hrest₂, n, ts₂, ?_, hts₂, hrun⟩
        simp only [List.length_cons] at hn
        omega

theorem copied_frozen {sp : Text} (hsp : ∀ c ∈ sp, isSpace c) {c : Char} (hc : isSpace c = false)
    {s w rest : Text} {kind : PpKind} (hread : ppRead c s = (kind, w)) (hsplit : c :: s = w ++ rest)
    (hkind : kind = .number ∨ kind = .literal) (hnul : nul ∉ s) (hok : frozenOk m w = true)
    {ts : List Token} (hts : Toks (sp ++ c :: s) ts) :
    ∃ tw ts', ts = tw ++ ts' ∧ Toks rest ts' ∧ WrittenAs w (!sp.isEmpty) tw ∧
      ∀ t ∈ tw, inert m t = true := by
  obtain ⟨v, rfl⟩ : ∃ v, w = c :: v := by
    cases w with
    | nil =>
      have hne := (ppRead_isPrefix c s).2
      rw [hread] at hne
      exact absurd rfl hne
    | cons d v => exact ⟨v, by rw [(List.cons.inj hsplit).1]⟩
  obtain rfl : s = v ++ rest := (List.cons.inj hsplit).2
  unfold frozenOk at hok
  cases htok : tokenise (c :: v) with
  | error f =>
    rw [htok] at hok
    cases hok
  | ok tw₀ =>
    rw [htok] at hok
    simp only [Bool.and_eq_true, beq_iff_eq, List.all_eq_true] at hok
    obtain ⟨tw, ts', rfl, hts', hwritten, hsame⟩ := toks_frozen hsp hc hkind hread
      (fun hm => hnul (by simp [hm])) (tokenise_iff.mp htok) hok.1 hts
    refine ⟨tw, ts', rfl, hts', hwritten, fun t ht => ?_⟩
    obtain ⟨t₀, ht₀, htok, hw⟩ := hsame t ht
    have hinert := hok.2 t₀ ht₀
    unfold inert at hinert ⊢
    rwa [htok, hw]

/-- A token that is no name, as the program's tokens. -/
theorem copied_tokens {sp : Text} (hsp : ∀ c ∈ sp, isSpace c) {c : Char} (hc : isSpace c = false)
    {s w rest : Text} {kind : PpKind} (hread : ppRead c s = (kind, w)) (hsplit : c :: s = w ++ rest)
    (hkind : kind ≠ .identifier) (hnul : nul ∉ s)
    (hjoin : (⟨kind, w, !sp.isEmpty⟩ : PpToken).isJoin = false)
    (hhash : (⟨kind, w, !sp.isEmpty⟩ : PpToken).isHash = false)
    (hok : tokenOk m ⟨kind, w, !sp.isEmpty⟩ = true) {ts : List Token}
    (hts : Toks (sp ++ c :: s) ts) :
    ∃ tw ts', ts = tw ++ ts' ∧ Toks rest ts' ∧ WrittenAs w (!sp.isEmpty) tw ∧
      ∀ t ∈ tw, inert m t = true := by
  cases kind with
  | identifier => exact absurd rfl hkind
  | number => exact copied_frozen hsp hc hread hsplit (Or.inl rfl) hnul hok hts
  | literal => exact copied_frozen hsp hc hread hsplit (Or.inr rfl) hnul hok hts
  | symbol =>
    obtain ⟨tw, ts', rfl, hts', hwritten, hplain⟩ := toks_symbol hsp hc hread hsplit
      (by simpa [PpToken.isHash] using hhash) (by simpa [PpToken.isJoin] using hjoin) hts
    refine ⟨tw, ts', rfl, hts', hwritten, fun t ht => ?_⟩
    have hplain := hplain t ht
    simp only [Tok.isPlain, Bool.and_eq_true, bne_iff_ne] at hplain
    simp [inert, hplain]

theorem tokenOk_of_item {t : PpToken} {us : List PpToken}
    (h : itemOk m args argsStr (.paste t us) = true) : tokenOk m t = true := by
  cases us with
  | nil => exact h
  | cons u us =>
    simp only [itemOk, Bool.and_eq_true] at h
    exact h.1.1

theorem operandOk_of_item {t : PpToken} {us : List PpToken}
    (h : itemOk m args argsStr (.paste t us) = true) : ∀ u ∈ us, operandOk m u = true := by
  cases us with
  | nil => simp
  | cons u us =>
    simp only [itemOk, Bool.and_eq_true, List.all_eq_true] at h
    exact h.1.2

theorem chain_cons {pts : List PpToken} (h : pts.head?.any PpToken.isJoin = true)
    (hend : (chain pts).2.head?.any PpToken.isJoin = false) :
    ∃ u us, (chain pts).1 = u :: us := by
  match pts, h with
  | [t], h =>
    have hself : (chain [t]).2 = [t] := rfl
    rw [hself, h] at hend
    cases hend
  | t :: u :: pts, h => exact ⟨u, (chain pts).1, by rw [chain, if_pos (by simpa using h)]⟩

/-- A run of `##` behind its first operand. -/
theorem steps_pasted (hlen : m.args.length ≤ args.length) {t : PpToken} {pts : List PpToken}
    (hok : itemOk m args argsStr (.paste t (chain pts).1) = true)
    (hend : (chain pts).2.head?.any PpToken.isJoin = false)
    (hhead : pts.head?.any PpToken.isJoin = true) {s rest : Text} (hnul : nul ∉ s)
    (hrest : rest <:+ s) (hpts : PpToks rest pts) {ts : List Token} (hts : Toks rest ts)
    {x word : Text} {ts' : List Token} (hjoins : hashJoins m args x ts = .ok (word, ts')) {n : Nat}
    (hn : ts.length ≤ n) {st : EvalState} {replace : Text} {r : EvalState × Text}
    (hrun : ∀ y, word = x ++ y →
      evalTokens rescan m args n st (appendTok replace t.blank (operand m args t ++ y)) ts' =
        pure r) :
    ItemSteps rescan m args argsStr st replace s (.paste t (chain pts).1) (chain pts).2 r := by
  obtain ⟨s', hs', hts', hpts', hle, hword⟩ :=
    hashJoins_operands hlen hts hpts (operandOk_of_item hok) hend hjoins
  obtain ⟨u, us, hus⟩ := chain_cons hhead hend
  have hrun := hrun _ hword
  rw [hus] at hok hrun ⊢
  simp only [itemOk, Bool.and_eq_true, beq_iff_eq] at hok
  refine ⟨st, _, s', rfl, hok.2, hs'.trans hrest, ?_, hpts', n, ts', by omega, hts', ?_⟩
  · exact fun hm => hnul ((hs'.trans hrest).subset hm)
  · simpa [List.flatMap] using hrun

/-- A name that stands alone or in front of `##`. -/
theorem steps_name (hlen : m.args.length ≤ args.length) {t : PpToken} {pts : List PpToken}
    (hkind : t.kind = .identifier)
    (hok : itemOk m args argsStr (.paste t (chain pts).1) = true)
    (hend : (chain pts).2.head?.any PpToken.isJoin = false) {st : EvalState} {replace s : Text}
    {r : EvalState × Text} (h : Evaluates rescan m args st replace s (t :: pts) r) :
    ItemSteps rescan m args argsStr st replace s (.paste t (chain pts).1) (chain pts).2 r := by
  obtain ⟨hnul, hpts, n, ts, hn, hts, hrun⟩ := h
  match hpts with
  | @PpToks.cons sp hsp c hc s₁ rest kind w hread hsplit _ hrest =>
    obtain rfl : kind = .identifier := hkind
    have hone := (ppRead_identifier hread hsplit).2
    obtain ⟨ts₁, rfl, hts₁⟩ := hts.cons_inv hsp hc hone
    obtain ⟨n, rfl⟩ : ∃ k, n = k + 1 := ⟨n - 1, by simp at hn; omega⟩
    have hn : ts₁.length ≤ n := by simpa using hn
    have hsuffix : rest <:+ sp ++ c :: s₁ := suffix_behind hsplit
    have hnulrest : nul ∉ rest := fun hm => hnul (hsuffix.subset hm)
    have harg := findArg_identifier (t := ⟨.identifier, w, !sp.isEmpty⟩) hlen rfl
      (tokenOk_of_item hok)
    by_cases hhead : pts.head?.any PpToken.isJoin = true
    · obtain ⟨word, ts', hjoins, hrun⟩ :=
        evalTokens_word (t := ⟨.word, w, !sp.isEmpty⟩) rfl ((head_join hts₁ hrest).mpr hhead) harg
          hrun
      refine steps_pasted hlen hok hend hhead hnul hsuffix hrest hts₁ hjoins hn fun y hy => ?_
      rw [hy] at hrun
      exact hrun
    · have hhead : pts.head?.any PpToken.isJoin = false := by simpa using hhead
      have hnext : ts₁.head?.map Token.tok ≠ some .hashJoin := by
        rw [Ne, head_join hts₁ hrest, hhead]
        simp
      rw [chain_none hhead]
      rw [evalTokens] at hrun
      dsimp only at hrun
      rw [if_neg hnext, harg] at hrun
      cases hargument : argument m args ⟨.identifier, w, !sp.isEmpty⟩ with
      | none =>
        rw [hargument] at hrun
        refine ⟨st, ⟨!sp.isEmpty, w, [w]⟩, rest, ?_, spelled_of_read hc hread hsplit, hsuffix,
          hnulrest, hrest, n, ts₁, hn, hts₁, hrun⟩
        rw [partOf, hargument]
      | some a =>
        rw [hargument, Partial.bind_eq_pure] at hrun
        obtain ⟨a', hsame, hrun⟩ := hrun
        obtain rfl := Except.ok.inj (Partial.ofExcept_eq_pure.mp hsame)
        rw [Partial.bind_eq_pure] at hrun
        obtain ⟨⟨st', word⟩, hexpand, hrun⟩ := hrun
        refine ⟨st', ⟨!sp.isEmpty, word, spelled word⟩, rest, ?_, rfl, hsuffix, hnulrest, hrest, n,
          ts₁, hn, hts₁, hrun⟩
        rw [partOf, hargument]
        exact Partial.bind_eq_pure.mpr ⟨(st', word), hexpand, rfl⟩

/-- The last of the copied tokens is an operand of `##` only when it is a word. -/
theorem evalTokens_copy_join {w : Text} {blank : Bool} {tw : List Token}
    (hw : WrittenAs w blank tw) (hinert : ∀ t ∈ tw, inert m t = true) {ts : List Token}
    (hjoin : ts.head?.map Token.tok = some .hashJoin) {n : Nat} (hn : (tw ++ ts).length ≤ n)
    {st : EvalState} {replace : Text} {r : EvalState × Text}
    (h : evalTokens rescan m args n st replace (tw ++ ts) = pure r) :
    ∃ x word ts' n', ts.length ≤ n' ∧ hashJoins m args x ts = .ok (word, ts') ∧
      ∀ y, word = x ++ y →
        evalTokens rescan m args n' st (appendTok replace blank (w ++ y)) ts' = pure r := by
  have hfold := foldl_appendToken hw replace
  obtain ⟨init, last, rfl⟩ : ∃ init last, tw = init ++ [last] := by
    obtain ⟨t, tl, rfl, -⟩ := hw
    exact ⟨_, _, (List.dropLast_append_getLast (List.cons_ne_nil t tl)).symm⟩
  have hlast := hinert last (by simp)
  have hnext : ((last :: ts).head?.map Token.tok) ≠ some .hashJoin := by
    simp only [inert, Bool.and_eq_true, bne_iff_ne] at hlast
    simpa using hlast.1.2
  obtain ⟨k, rfl⟩ : ∃ k, n = k + 1 + init.length :=
    ⟨n - 1 - init.length, by simp at hn; omega⟩
  have hk : ts.length ≤ k := by simp at hn; omega
  rw [List.append_assoc, List.singleton_append,
    evalTokens_copy (fun t ht => hinert t (by simp [ht])) hnext] at h
  rw [List.foldl_append, List.foldl_cons, List.foldl_nil] at hfold
  by_cases hword : last.tok = .word
  · obtain ⟨word, ts', hjoins, hrun⟩ :=
      evalTokens_word hword hjoin (findArg_inert hlast hword) h
    refine ⟨last.w, word, ts', k, hk, hjoins, fun y hy => ?_⟩
    have hstr : tokenStr last = last.w := by simp [tokenStr, hword]
    rw [← appendTok_append, ← hfold, appendToken, hstr, appendTok_append, ← hy]
    exact hrun
  · rw [evalTokens_inert hlast fun h => absurd h hword] at h
    obtain ⟨t, ts, rfl⟩ : ∃ t ts', ts = t :: ts' := by
      cases ts with
      | nil => cases hjoin
      | cons t ts => exact ⟨t, ts, rfl⟩
    obtain ⟨k, rfl⟩ : ∃ k', k = k' + 1 := ⟨k - 1, by simp at hk; omega⟩
    have htok : t.tok = .hashJoin := by simpa using hjoin
    rw [evalTokens, htok] at h
    exact absurd h (Partial.die_ne_pure _ _)

/-- Any other token that stands alone or in front of `##`. -/
theorem steps_copy (hlen : m.args.length ≤ args.length) {t : PpToken} {pts : List PpToken}
    (hkind : t.kind ≠ .identifier) (hjoin : t.isJoin = false) (hhash : t.isHash = false)
    (hok : itemOk m args argsStr (.paste t (chain pts).1) = true)
    (hend : (chain pts).2.head?.any PpToken.isJoin = false) {st : EvalState} {replace s : Text}
    {r : EvalState × Text} (h : Evaluates rescan m args st replace s (t :: pts) r) :
    ItemSteps rescan m args argsStr st replace s (.paste t (chain pts).1) (chain pts).2 r := by
  obtain ⟨hnul, hpts, n, ts, hn, hts, hrun⟩ := h
  match hpts with
  | @PpToks.cons sp hsp c hc s₁ rest kind w hread hsplit _ hrest =>
    obtain ⟨tw, ts₁, rfl, hts₁, hwritten, hinert⟩ := copied_tokens hsp hc hread hsplit hkind
      (fun hm => hnul (by simp [hm])) hjoin hhash (tokenOk_of_item hok) hts
    have hsuffix : rest <:+ sp ++ c :: s₁ := suffix_behind hsplit
    have hargument : argument m args ⟨kind, w, !sp.isEmpty⟩ = none := if_neg hkind
    by_cases hhead : pts.head?.any PpToken.isJoin = true
    · obtain ⟨x, word, ts', n', hn', hjoins, hrun⟩ :=
        evalTokens_copy_join hwritten hinert ((head_join hts₁ hrest).mpr hhead) hn hrun
      refine steps_pasted hlen hok hend hhead hnul hsuffix hrest hts₁ hjoins hn' fun y hy => ?_
      rw [operand, hargument]
      exact hrun y hy
    · have hhead : pts.head?.any PpToken.isJoin = false := by simpa using hhead
      have hnext : ts₁.head?.map Token.tok ≠ some .hashJoin := by
        rw [Ne, head_join hts₁ hrest, hhead]
        simp
      obtain ⟨k, rfl⟩ : ∃ k, n = k + tw.length := ⟨n - tw.length, by simp at hn; omega⟩
      rw [chain_none hhead]
      rw [evalTokens_copy hinert hnext, foldl_appendToken hwritten] at hrun
      refine ⟨st, ⟨!sp.isEmpty, w, [w]⟩, rest, ?_, spelled_of_read hc hread hsplit, hsuffix,
        fun hm => hnul (hsuffix.subset hm), hrest, k, ts₁, ?_, hts₁, hrun⟩
      · rw [partOf, hargument]
      · simp at hn
        omega

/-! ## The whole body -/

theorem items_head {k : Nat} {pts : List PpToken} (hk : pts.length ≤ k) {its : List BodyItem}
    (h : items k pts = some its) : pts.head?.any PpToken.isJoin = false := by
  cases pts with
  | nil => rfl
  | cons t pts =>
    obtain ⟨k, rfl⟩ : ∃ j, k = j + 1 := ⟨k - 1, by simp at hk; omega⟩
    unfold items at h
    by_contra hjoin
    rw [if_pos (by simpa using hjoin)] at h
    cases h

theorem getLast?_of_suffix {rest s : Text} (h : rest <:+ s)
    (hlast : rest.getLast?.any isSpace = true) : s.getLast?.any isSpace = true := by
  obtain ⟨front, rfl⟩ := h
  cases hrest : rest.getLast? with
  | none =>
    rw [hrest] at hlast
    cases hlast
  | some c =>
    rw [List.getLast?_append, hrest]
    rwa [hrest] at hlast

/-- The loop has written the parts of the items, and perhaps a blank behind them. -/
def Writes (rescan : Rescan) (m : Macro) (args : List Text) (argsStr : Text) (st : EvalState)
    (replace s : Text) (its : List BodyItem) (r : EvalState × Text) : Prop :=
  ∃ parts, partsOf rescan m args argsStr st its = pure (r.1, parts) ∧
    (∀ p ∈ parts, spelled p.text = p.tokens) ∧
    (r.2 = rendered replace parts ∨
      r.2 = rendered replace parts ++ [' '] ∧ s.getLast?.any isSpace = true)

theorem ItemSteps.writes {st : EvalState} {replace s : Text} {it : BodyItem} {its : List BodyItem}
    {pts : List PpToken} {r : EvalState × Text}
    (h : ItemSteps rescan m args argsStr st replace s it pts r)
    (hrest : ∀ {st : EvalState} {replace s : Text}, Evaluates rescan m args st replace s pts r →
      Writes rescan m args argsStr st replace s its r) :
    Writes rescan m args argsStr st replace s (it :: its) r := by
  obtain ⟨st', p, s', hpart, hspelled, hsuffix, hevaluates⟩ := h
  obtain ⟨parts, hparts, hall, htext⟩ := hrest hevaluates
  refine ⟨p :: parts, ?_, List.forall_mem_cons.mpr ⟨hspelled, hall⟩, ?_⟩
  · rw [partsOf, Partial.bind_eq_pure]
    exact ⟨_, hpart, Partial.bind_eq_pure.mpr ⟨_, hparts, rfl⟩⟩
  · exact htext.imp_right fun ⟨heq, hlast⟩ => ⟨heq, getLast?_of_suffix hsuffix hlast⟩

/-- At the end of the body stands no word, or an empty one behind white space. -/
theorem Evaluates.nil (hparams : [] ∉ m.args) {st : EvalState} {replace s : Text}
    {r : EvalState × Text} (h : Evaluates rescan m args st replace s [] r) :
    Writes rescan m args argsStr st replace s [] r := by
  obtain ⟨-, hpts, n, ts, hn, hts, hrun⟩ := h
  match hpts with
  | .nil hsp =>
    rcases toks_spaces hsp hts with ⟨-, rfl⟩ | ⟨hne, rfl⟩
    · have hend : evalTokens rescan m args n st replace [] = pure (st, replace) := by
        cases n <;> rfl
      rw [hend, Partial.pure_inj] at hrun
      subst hrun
      exact ⟨[], rfl, by simp, Or.inl rfl⟩
    · obtain ⟨n, rfl⟩ : ∃ k, n = k + 1 := ⟨n - 1, by simp at hn; omega⟩
      have hva : [] ≠ vaArgsStr := by decide
      have hinert : inert m ⟨.word, [], true⟩ = true := by simp [inert, hva, hparams]
      have hend : ∀ replace, evalTokens rescan m args n st replace [] = pure (st, replace) := by
        cases n <;> exact fun _ => rfl
      rw [evalTokens_inert hinert (by simp), hend, Partial.pure_inj] at hrun
      subst hrun
      refine ⟨[], rfl, by simp, ?_⟩
      have hlast := hsp _ (List.getLast_mem hne)
      by_cases hempty : replace = []
      · exact Or.inl (by simp [appendToken, appendTok, tokenStr, hempty, rendered])
      · refine Or.inr ⟨?_, ?_⟩
        · simp [appendToken, appendTok, tokenStr, hempty, rendered]
        · rw [List.getLast?_eq_some_getLast hne]
          exact hlast

/-- What the loop writes for the items of a text. -/
theorem Evaluates.writes (hlen : m.args.length ≤ args.length) (hparams : [] ∉ m.args) {k : Nat}
    {pts : List PpToken} (hk : pts.length ≤ k) {its : List BodyItem}
    (hitems : items k pts = some its) (hok : ∀ it ∈ its, itemOk m args argsStr it = true)
    {st : EvalState} {replace s : Text} {r : EvalState × Text}
    (h : Evaluates rescan m args st replace s pts r) :
    Writes rescan m args argsStr st replace s its r := by
  induction k generalizing pts its st replace s with
  | zero =>
    obtain rfl := List.length_eq_zero_iff.mp (Nat.le_zero.mp hk)
    obtain rfl : [] = its := Option.some.inj hitems
    exact h.nil hparams
  | succ k ih =>
    match pts with
    | [] =>
      obtain rfl : [] = its := Option.some.inj hitems
      exact h.nil hparams
    | t :: pts =>
      have hjoin : t.isJoin = false := items_head hk hitems
      unfold items at hitems
      rw [if_neg (by simp [hjoin])] at hitems
      by_cases hhash : t.isHash = true
      · rw [if_pos hhash] at hitems
        match pts with
        | u :: pts =>
          obtain ⟨its, hrest, rfl⟩ := Option.map_eq_some_iff.mp hitems
          obtain ⟨hone, hall⟩ := List.forall_mem_cons.mp hok
          refine (steps_stringise hlen hhash hone h).writes fun h => ?_
          exact ih (by simp at hk; omega) hrest hall h
      · rw [if_neg hhash] at hitems
        obtain ⟨its, hrest, rfl⟩ := Option.map_eq_some_iff.mp hitems
        obtain ⟨hone, hall⟩ := List.forall_mem_cons.mp hok
        have hle := chain_length pts
        have hlt : (chain pts).2.length ≤ k := by simp at hk; omega
        have hend := items_head hlt hrest
        have hsteps : ItemSteps rescan m args argsStr st replace s (.paste t (chain pts).1)
            (chain pts).2 r := by
          by_cases hkind : t.kind = .identifier
          · exact steps_name hlen hkind hone hend h
          · exact steps_copy hlen hkind hjoin (by simpa using hhash) hone hend h
        exact hsteps.writes fun h => ih hlt hrest hall h

/-! ## The text that is written -/

theorem spelled_append {a b : Text} (h : meets a b = true) :
    spelled (a ++ b) = spelled a ++ spelled b := by
  have hcore := congrArg (List.map Prod.snd) (ppTokens_append h)
  rw [List.map_append, List.map_map, List.map_map, List.map_map] at hcore
  exact hcore

theorem spelled_blanks {sp : Text} (hsp : ∀ c ∈ sp, isSpace c) (s : Text) :
    spelled (sp ++ s) = spelled s := by
  obtain ⟨ts, hts, hcore⟩ := (ppToks_ppTokens s).blanks hsp
  have hspelling := congrArg (List.map Prod.snd) hcore
  rw [List.map_map, List.map_map] at hspelling
  rw [spelled, ppTokens_iff.mpr hts]
  exact hspelling

theorem spelled_rendered {replace : Text} {parts : List Part}
    (hparts : ∀ p ∈ parts, spelled p.text = p.tokens) (h : separate replace parts = true) :
    spelled (rendered replace parts) = spelled replace ++ parts.flatMap Part.tokens := by
  induction parts generalizing replace with
  | nil => exact (List.append_nil _).symm
  | cons p parts ih =>
    obtain ⟨hp, hrest⟩ := List.forall_mem_cons.mp hparts
    obtain ⟨hmeets, hseparate⟩ : meets replace (gap replace p.blank ++ p.text) = true ∧ _ :=
      Bool.and_eq_true_iff.mp h
    have hblank : ∀ c ∈ gap replace p.blank, isSpace c := by
      intro c hc
      unfold gap at hc
      split at hc
      · obtain rfl := List.mem_singleton.mp hc
        rfl
      · cases hc
    have hone : spelled (appendTok replace p.blank p.text) = spelled replace ++ p.tokens := by
      rw [appendTok, List.append_assoc]
      exact (spelled_append hmeets).trans (by rw [spelled_blanks hblank, hp])
    calc spelled (rendered replace (p :: parts))
        = spelled (appendTok replace p.blank p.text) ++ parts.flatMap Part.tokens :=
          ih hrest hseparate
      _ = spelled replace ++ (p :: parts).flatMap Part.tokens := by
          rw [hone, List.append_assoc, List.flatMap_cons]

/-! ## Substitution -/

theorem checkArgs_length {m : Macro} {as args : List Text} (h : checkArgs m as = .ok args) :
    m.args.length ≤ args.length := by
  have hempty : (if as.length = 0 ∧ m.args.length = 1 then .ok [[]]
      else .error (.badInvocation m.nam) : Except Fault (List Text)) = .ok args →
      m.args.length ≤ args.length := fun h => by
    by_cases hone : as.length = 0 ∧ m.args.length = 1
    · rw [if_pos hone] at h
      obtain rfl : [[]] = args := Except.ok.inj h
      exact hone.2.le
    · rw [if_neg hone] at h
      cases h
  have htrim : as.map strTrim = args → args.length = as.length := fun h => by
    rw [← h, List.length_map]
  unfold checkArgs at h
  dsimp only at h
  by_cases hcount : if m.type = .variadic then as.length < m.args.length
      else as.length ≠ m.args.length
  · rw [if_pos hcount] at h
    exact hempty h
  · rw [if_neg hcount] at h
    have hlen := htrim (Except.ok.inj h)
    split at hcount <;> omega

/-- The arguments of an invocation that is accepted. -/
def invocationArgs (m : Macro) (argsStr : Text) : Except Fault (List Text) :=
  (splitFuncArgs argsStr).bind (checkArgs m)

theorem evalFuncMacro_body {E : Env} {val : Text} (hval : m.val = some val)
    (hargs : invocationArgs m argsStr = .ok args) {st : EvalState} {r : EvalState × Text}
    (h : evalFuncMacro E rescan m st argsStr = pure r) :
    ∃ toks, tokenise val = .ok toks ∧
      evalTokens rescan m args toks.length st [] toks = pure r := by
  unfold invocationArgs at hargs
  unfold evalFuncMacro at h
  rw [Partial.bind_eq_pure] at h
  obtain ⟨as, hsplit, h⟩ := h
  rw [Partial.ofExcept_eq_pure.mp hsplit] at hargs
  rw [hval] at h
  dsimp only at h
  rw [Partial.bind_eq_pure] at h
  obtain ⟨args', hcheck, h⟩ := h
  obtain rfl := Except.ok.inj ((Partial.ofExcept_eq_pure.mp hcheck).symm.trans hargs)
  rw [Partial.bind_eq_pure] at h
  obtain ⟨toks, htoks, h⟩ := h
  exact ⟨toks, Partial.ofExcept_eq_pure.mp htoks, h⟩

end

/-- Only the last word can be empty. -/
def WordsFilled (ts : List Token) : Prop :=
  ∀ t rest, t :: rest <:+ ts → rest ≠ [] → t.tok = .word → t.w ≠ []

theorem WordsFilled.suffix {ts ts' : List Token} (h : WordsFilled ts) (hsuffix : ts' <:+ ts) :
    WordsFilled ts' := fun t rest hrest => h t rest (hrest.trans hsuffix)

theorem Toks.wordsFilled {s : Text} {ts : List Token} (h : Toks s ts) : WordsFilled ts := by
  induction h with
  | nil =>
    intro t rest hsuffix
    exact absurd (List.suffix_nil.mp hsuffix) (by simp)
  | spaces =>
    intro t rest hsuffix hne
    have hlen := hsuffix.length_le
    have hpos := List.length_pos_iff.mpr hne
    simp only [List.length_cons, List.length_nil] at hlen
    omega
  | @cons sp hsp c hc s tok w rest hread ts _ ih =>
    intro t tl hsuffix hne hword
    rcases List.suffix_cons_iff.mp hsuffix with heq | hrest
    · obtain ⟨rfl, rfl⟩ := List.cons.inj heq
      obtain rfl : tok = .word := hword
      rw [readToken_word (isWordStart_of_readToken hread)] at hread
      cases hread
      simp
    · exact ih t tl hrest hne hword

theorem readParams_filled {ts : List Token} (hfilled : WordsFilled ts) {acc args : List Text}
    {variadic : Bool} {body : List Token} (hacc : [] ∉ acc)
    (h : readParams ts acc = .ok (args, variadic, body)) : [] ∉ args := by
  match ts with
  | [] =>
    cases h
    exact hacc
  | t :: ts =>
    unfold readParams at h
    split at h
    · cases h
      exact hacc
    · split at h
      · cases h
      · split at h
        · cases h
          exact hacc
        · cases h
    · rename_i hword
      have hstr : tokenStr t = t.w := by simp [tokenStr, hword]
      split at h
      · cases h
      · rename_i t' ts
        have hne : tokenStr t ≠ [] := by
          rw [hstr]
          exact hfilled t _ List.suffix_rfl (by simp) hword
        have hmore : [] ∉ acc ++ [tokenStr t] := by simpa using ⟨hacc, hne⟩
        split at h
        · refine readParams_filled (hfilled.suffix ?_) hmore h
          exact (List.suffix_cons _ _).trans (List.suffix_cons _ _)
        · cases h
          exact hmore
        · cases h
    · cases h

theorem mem_updateFirst {nam : Text} {f : Macro → Macro} {t : Table} {m : Macro}
    (h : m ∈ updateFirst nam f t) : m ∈ t ∨ ∃ m₀ ∈ t, m = f m₀ := by
  induction t with
  | nil => cases h
  | cons m₁ t ih =>
    rw [updateFirst] at h
    split at h
    · rcases List.mem_cons.mp h with rfl | h
      · exact Or.inr ⟨m₁, List.mem_cons_self, rfl⟩
      · exact Or.inl (List.mem_cons_of_mem _ h)
    · rcases List.mem_cons.mp h with rfl | h
      · exact Or.inl List.mem_cons_self
      · rcases ih h with hmem | ⟨m₀, hmem, rfl⟩
        · exact Or.inl (List.mem_cons_of_mem _ hmem)
        · exact Or.inr ⟨m₀, List.mem_cons_of_mem _ hmem, rfl⟩

theorem macroAdd_params {t t' : Table} {nam val : Text} (ht : ∀ m ∈ t, [] ∉ m.args)
    (h : macroAdd t nam val = .ok t') : ∀ m ∈ t', [] ∉ m.args := by
  intro m hm
  unfold macroAdd at h
  split at h
  · cases h
  · split at h
    · split at h
      · cases h
      · cases h
        rcases mem_updateFirst hm with hm | ⟨m₀, hm₀, rfl⟩
        · exact ht m hm
        · exact ht m₀ hm₀
    · cases h
      rcases List.mem_append.mp hm with hm | hm
      · exact ht m hm
      · obtain rfl := List.mem_singleton.mp hm
        simp

/-- The parameters of a macro are words that the directive has read. -/
theorem handleDefine_params {line : Text} {ts₀ ts : List Token} (hline : Toks line ts₀)
    (hts : ts <:+ ts₀) {t t' : Table} (ht : ∀ m ∈ t, [] ∉ m.args)
    (h : handleDefine t ts = .ok t') : ∀ m ∈ t', [] ∉ m.args := by
  unfold handleDefine at h
  split at h
  · cases h
  · split at h
    · cases h
    · split at h
      · exact macroAdd_params ht h
      · rename_i p ps
        split at h
        · split at h
          · cases h
          · rename_i args variadic body hparams
            have hsuffix : ps <:+ ts₀ :=
              ((List.suffix_cons p ps).trans (List.suffix_cons _ _)).trans hts
            have hargs := readParams_filled (hline.wordsFilled.suffix hsuffix) (by simp) hparams
            unfold macroAddFunc at h
            split at h
            · cases h
            · rename_i u hu
              cases h
              intro m hm
              rcases mem_updateFirst hm with hm | ⟨m₀, -, rfl⟩
              · exact macroAdd_params ht hu m hm
              · exact hargs
        · exact macroAdd_params ht h

end Ucc.Cpp
