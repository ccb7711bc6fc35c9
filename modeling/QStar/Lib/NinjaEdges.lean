import QStar.Lib.CStrings

/-!
# Build statements of a Ninja file

The tokens of a line of paths and the build statement they make up. A path ends at
a space, a colon or a bar; a dollar before a space, a colon or a dollar makes it
part of the path. References to variables in paths, implicit outputs, validations
and lines that go on after a dollar are left out; a statement with them is not read.
-/
namespace QStar.Lib.NinjaEdges

open QStar.Lib.CStrings

/-! ## Tokens of a line -/

inductive Token where
  | path (p : Bytes)
  | colon
  | pipe
  | pipe2
  deriving DecidableEq, Repr

/-- What has been read of the token at hand. -/
inductive State where
  | between
  | path (p : Bytes)
  | dollar (p : Bytes)
  | pipe

/-- Reading a byte at the start of a token. -/
def start (c : UInt8) : Option (List Token × State) :=
  if c = 32 then some ([], .between)
  else if c = 58 then some ([.colon], .between)
  else if c = 124 then some ([], .pipe)
  else if c = 36 then some ([], .dollar [])
  else if c = 10 ∨ c = 13 then none
  else some ([], .path [c])

/-- The tokens a byte completes, and what is being read then. -/
def next : State → UInt8 → Option (List Token × State)
  | .between, c => start c
  | .path p, c =>
    if c = 32 ∨ c = 58 ∨ c = 124 then (start c).map fun r => (.path p :: r.1, r.2)
    else if c = 36 then some ([], .dollar p)
    else if c = 10 ∨ c = 13 then none
    else some ([], .path (p ++ [c]))
  | .dollar p, c =>
    if c = 32 ∨ c = 58 ∨ c = 36 then some ([], .path (p ++ [c])) else none
  | .pipe, c =>
    if c = 124 then some ([.pipe2], .between)
    else (start c).map fun r => (.pipe :: r.1, r.2)

/-- The token that ends with the line. -/
def finish : State → Option (List Token)
  | .between => some []
  | .path p => some [.path p]
  | .dollar _ => none
  | .pipe => some [.pipe]

def lex : State → Bytes → Option (List Token)
  | s, [] => finish s
  | s, c :: rest => (next s c).bind fun r => (lex r.2 rest).map (r.1 ++ ·)

/-- A path as it is written. -/
def escape (p : Bytes) : Bytes :=
  p.flatMap fun c => if c = 32 ∨ c = 58 ∨ c = 36 then [36, c] else [c]

/-- A token as it is written. -/
def Token.print : Token → Bytes
  | .path p => 32 :: escape p
  | .colon => [58]
  | .pipe => [32, 124]
  | .pipe2 => [32, 124, 124]

/-- A byte that a path may hold. -/
def PathByte (c : UInt8) : Prop := c ≠ 124 ∧ c ≠ 10 ∧ c ≠ 13

instance (c : UInt8) : Decidable (PathByte c) := inferInstanceAs (Decidable (_ ∧ _))

/-- A path that can be written. -/
def Plain (p : Bytes) : Prop := p ≠ [] ∧ ∀ c ∈ p, PathByte c

instance (p : Bytes) : Decidable (Plain p) := inferInstanceAs (Decidable (_ ∧ _))

theorem lex_cons (s : State) (c : UInt8) (rest : Bytes) :
    lex s (c :: rest) = (next s c).bind fun r => (lex r.2 rest).map (r.1 ++ ·) := rfl

/-- A written path is read to its end. -/
theorem lex_escape {p : Bytes} (hp : ∀ c ∈ p, PathByte c) (q rest : Bytes) :
    lex (.path q) (escape p ++ rest) = lex (.path (q ++ p)) rest := by
  induction p generalizing q with
  | nil => simp [escape]
  | cons c p ih =>
    obtain ⟨hbar, hnewline, hreturn⟩ := hp c (by simp)
    have hrest := ih (fun d hd => hp d (by simp [hd])) (q ++ [c])
    rw [List.append_assoc, List.singleton_append] at hrest
    by_cases hspecial : c = 32 ∨ c = 58 ∨ c = 36
    · have htext : escape (c :: p) ++ rest = 36 :: c :: (escape p ++ rest) := by
        simp [escape, hspecial]
      rw [htext, lex_cons, ← hrest]
      simp [next, lex_cons, hspecial, Function.comp_def]
    · have htext : escape (c :: p) ++ rest = c :: (escape p ++ rest) := by
        simp [escape, hspecial]
      obtain ⟨hspace, hcolon, hdollar⟩ : c ≠ 32 ∧ c ≠ 58 ∧ c ≠ 36 := by simpa using hspecial
      rw [htext, lex_cons, ← hrest]
      simp [next, hspace, hcolon, hdollar, hbar, hnewline, hreturn]

theorem lex_path {p : Bytes} (hp : Plain p) (rest : Bytes) :
    lex .between (escape p ++ rest) = lex (.path p) rest := by
  obtain ⟨hne, hbytes⟩ := hp
  obtain ⟨c, p, rfl⟩ := List.exists_cons_of_ne_nil hne
  obtain ⟨hbar, hnewline, hreturn⟩ := hbytes c (by simp)
  have hrest := lex_escape (p := p) (fun d hd => hbytes d (by simp [hd])) [c] rest
  rw [List.singleton_append] at hrest
  by_cases hspecial : c = 32 ∨ c = 58 ∨ c = 36
  · have htext : escape (c :: p) ++ rest = 36 :: c :: (escape p ++ rest) := by
      simp [escape, hspecial]
    rw [htext, lex_cons, ← hrest]
    simp [next, start, lex_cons, hspecial, Function.comp_def]
  · have htext : escape (c :: p) ++ rest = c :: (escape p ++ rest) := by
      simp [escape, hspecial]
    obtain ⟨hspace, hcolon, hdollar⟩ : c ≠ 32 ∧ c ≠ 58 ∧ c ≠ 36 := by simpa using hspecial
    rw [htext, lex_cons, ← hrest]
    simp [next, start, hspace, hcolon, hdollar, hbar, hnewline, hreturn]

/-- A token that is complete is delivered by the space after it. -/
theorem lex_space {s : State} {done : List Token} (hs : finish s = some done) (rest : Bytes) :
    lex s (32 :: rest) = (lex .between rest).map (done ++ ·) := by
  rw [lex_cons]
  cases s with
  | between =>
    cases hs
    rfl
  | path p =>
    cases hs
    rfl
  | dollar p => cases hs
  | pipe =>
    cases hs
    rfl

theorem lex_colon {s : State} {done : List Token} (hs : finish s = some done) (rest : Bytes) :
    lex s (58 :: rest) = (lex .between rest).map (done ++ .colon :: ·) := by
  rw [lex_cons]
  cases s with
  | between =>
    cases hs
    rfl
  | path p =>
    cases hs
    rfl
  | dollar p => cases hs
  | pipe =>
    cases hs
    rfl

/-- Written tokens are read back. -/
theorem lex_print {tokens : List Token} (hplain : ∀ p, .path p ∈ tokens → Plain p) {s : State}
    {done : List Token} (hs : finish s = some done) :
    lex s (tokens.flatMap Token.print) = some (done ++ tokens) := by
  induction tokens generalizing s done with
  | nil => simpa [lex] using hs
  | cons token rest ih =>
    have hrest : ∀ p, .path p ∈ rest → Plain p := fun p hp => hplain p (by simp [hp])
    rw [List.flatMap_cons]
    cases token with
    | path p =>
      have hp := hplain p (by simp)
      rw [Token.print, List.cons_append, lex_space hs, lex_path hp, ih hrest (s := .path p) rfl]
      simp
    | colon =>
      rw [Token.print, List.singleton_append, lex_colon hs, ih hrest (s := .between) rfl]
      simp
    | pipe =>
      have hbar : lex .between (124 :: rest.flatMap Token.print) =
          lex .pipe (rest.flatMap Token.print) := by simp [lex_cons, next, start]
      rw [Token.print, List.cons_append, List.singleton_append, lex_space hs, hbar,
        ih hrest (s := .pipe) rfl]
      simp
    | pipe2 =>
      have hbars : lex .between (124 :: 124 :: rest.flatMap Token.print) =
          (lex .between (rest.flatMap Token.print)).map (.pipe2 :: ·) := by
        simp [lex_cons, next, start, Function.comp_def]
      rw [Token.print, List.cons_append, List.cons_append, List.singleton_append, lex_space hs,
        hbars, ih hrest (s := .between) rfl]
      simp

/-- What has been read so far can be part of a path. -/
def State.Good : State → Prop
  | .path p => Plain p
  | .dollar p => ∀ c ∈ p, PathByte c
  | _ => True

theorem start_good {c : UInt8} {tokens : List Token} {s : State} (h : start c = some (tokens, s)) :
    s.Good ∧ ∀ p, .path p ∉ tokens := by
  unfold start at h
  split at h
  · cases h
    simp [State.Good]
  · split at h
    · cases h
      simp [State.Good]
    · split at h
      · cases h
        simp [State.Good]
      · split at h
        · cases h
          simp [State.Good]
        · split at h
          · cases h
          · rename_i hbar _ hbreak
            cases h
            obtain ⟨hnewline, hreturn⟩ := not_or.mp hbreak
            simp [State.Good, Plain, PathByte, hbar, hnewline, hreturn]

theorem next_good {s : State} (hs : s.Good) {c : UInt8} {tokens : List Token} {s' : State}
    (h : next s c = some (tokens, s')) : s'.Good ∧ ∀ p, .path p ∈ tokens → Plain p := by
  cases s with
  | between =>
    obtain ⟨hgood, hnone⟩ := start_good h
    exact ⟨hgood, fun p hp => absurd hp (hnone p)⟩
  | path q =>
    simp only [next] at h
    split at h
    · obtain ⟨⟨more, s''⟩, hstart, heq⟩ := Option.map_eq_some_iff.mp h
      cases heq
      obtain ⟨hgood, hnone⟩ := start_good hstart
      refine ⟨hgood, ?_⟩
      intro p hp
      rcases List.mem_cons.mp hp with hp | hp
      · cases hp
        exact hs
      · exact absurd hp (hnone p)
    · split at h
      · cases h
        exact ⟨hs.2, by simp⟩
      · split at h
        · cases h
        · rename_i hsep _ hbreak
          cases h
          obtain ⟨hnewline, hreturn⟩ := not_or.mp hbreak
          have hbar : c ≠ 124 := fun heq => hsep (.inr (.inr heq))
          refine ⟨⟨by simp, ?_⟩, by simp⟩
          intro d hd
          rcases List.mem_append.mp hd with hd | hd
          · exact hs.2 d hd
          · rw [List.mem_singleton.mp hd]
            exact ⟨hbar, hnewline, hreturn⟩
  | dollar q =>
    simp only [next] at h
    split at h
    · rename_i hescaped
      cases h
      refine ⟨⟨by simp, ?_⟩, by simp⟩
      intro d hd
      rcases List.mem_append.mp hd with hd | hd
      · exact hs d hd
      · rw [List.mem_singleton.mp hd]
        rcases hescaped with rfl | rfl | rfl <;> decide
    · cases h
  | pipe =>
    simp only [next] at h
    split at h
    · cases h
      exact ⟨trivial, by simp⟩
    · obtain ⟨⟨more, s''⟩, hstart, heq⟩ := Option.map_eq_some_iff.mp h
      cases heq
      obtain ⟨hgood, hnone⟩ := start_good hstart
      exact ⟨hgood, fun p hp => absurd (by simpa using hp) (hnone p)⟩

/-- Every path that is read could have been written. -/
theorem plain_of_lex {s : State} (hs : s.Good) {text : Bytes} {tokens : List Token}
    (h : lex s text = some tokens) : ∀ p, .path p ∈ tokens → Plain p := by
  induction text generalizing s tokens with
  | nil =>
    intro p hp
    cases s with
    | between =>
      cases h
      cases hp
    | path q =>
      cases h
      rw [List.mem_singleton] at hp
      cases hp
      exact hs
    | dollar q => cases h
    | pipe =>
      cases h
      simp at hp
  | cons c rest ih =>
    rw [lex_cons] at h
    obtain ⟨⟨first, s'⟩, hnext, h⟩ := Option.bind_eq_some_iff.mp h
    obtain ⟨more, hmore, rfl⟩ := Option.map_eq_some_iff.mp h
    obtain ⟨hgood, hfirst⟩ := next_good hs hnext
    intro p hp
    rcases List.mem_append.mp hp with hp | hp
    · exact hfirst p hp
    · exact ih hgood hmore p hp

/-! ## Build statements -/

/-- What a build statement says. -/
structure Edge where
  outputs : List Bytes
  rule : Bytes
  explicit : List Bytes
  implicit : List Bytes
  orderOnly : List Bytes
  deriving DecidableEq, Repr

/-- The paths up to the next token that is none. -/
def takePaths : List Token → List Bytes × List Token
  | .path p :: rest => (p :: (takePaths rest).1, (takePaths rest).2)
  | rest => ([], rest)

/-- The paths of a section, if its opener is next. -/
def takeSection (opener : Token) : List Token → List Bytes × List Token
  | [] => ([], [])
  | token :: rest => if token = opener then takePaths rest else ([], token :: rest)

def readEdge (tokens : List Token) : Option Edge :=
  let outputs := takePaths tokens
  match outputs.2 with
  | .colon :: .path rule :: rest =>
    let explicit := takePaths rest
    let implicit := takeSection .pipe explicit.2
    let orderOnly := takeSection .pipe2 implicit.2
    if outputs.1 ≠ [] ∧ orderOnly.2 = [] then
      some ⟨outputs.1, rule, explicit.1, implicit.1, orderOnly.1⟩
    else none
  | _ => none

/-- A build statement as it is written, section after section. -/
structure WrittenEdge where
  outputs : List Bytes
  rule : Bytes
  explicit : List Bytes
  implicit : List (List Bytes)
  orderOnly : List (List Bytes)

def WrittenEdge.tokens (e : WrittenEdge) : List Token :=
  e.outputs.map .path ++ .colon :: .path e.rule :: (e.explicit.map .path ++
    (e.implicit.flatMap (fun ps => .pipe :: ps.map .path) ++
      e.orderOnly.flatMap fun ps => .pipe2 :: ps.map .path))

/-- What the statement is meant to say. -/
def WrittenEdge.edge (e : WrittenEdge) : Edge :=
  ⟨e.outputs, e.rule, e.explicit, e.implicit.flatten, e.orderOnly.flatten⟩

/-- Every path of a statement. -/
def WrittenEdge.paths (e : WrittenEdge) : List Bytes :=
  e.outputs ++ e.explicit ++ e.implicit.flatten ++ e.orderOnly.flatten

theorem takePaths_map (ps : List Bytes) {rest : List Token}
    (hrest : ∀ p more, rest ≠ .path p :: more) : takePaths (ps.map .path ++ rest) = (ps, rest) := by
  induction ps with
  | nil =>
    cases rest with
    | nil => rfl
    | cons token more =>
      cases token with
      | path p => exact absurd rfl (hrest p more)
      | _ => rfl
  | cons p ps ih => simp [takePaths, ih]

/-- A statement is read when it has an output and opens no section twice. -/
theorem readEdge_tokens (e : WrittenEdge) :
    readEdge e.tokens = if e.outputs ≠ [] ∧ e.implicit.length ≤ 1 ∧ e.orderOnly.length ≤ 1 then
      some e.edge else none := by
  obtain ⟨outputs, rule, explicit, implicit, orderOnly⟩ := e
  have hall (ps : List Bytes) : takePaths (ps.map .path) = (ps, []) := by
    simpa using @takePaths_map ps [] (by simp)
  simp only [readEdge, WrittenEdge.tokens, @takePaths_map outputs (.colon :: _) (by simp)]
  rcases implicit with _ | ⟨first, _ | ⟨second, more⟩⟩ <;>
  rcases orderOnly with _ | ⟨first', _ | ⟨second', more'⟩⟩ <;>
  simp [takePaths_map, takeSection, WrittenEdge.edge, hall]

theorem mem_takePaths {tokens : List Token} {p : Bytes} :
    (p ∈ (takePaths tokens).1 → .path p ∈ tokens) ∧
      ∀ token ∈ (takePaths tokens).2, token ∈ tokens := by
  induction tokens with
  | nil => simp [takePaths]
  | cons token rest ih =>
    cases token with
    | path q =>
      simp only [takePaths, List.mem_cons, Token.path.injEq]
      exact ⟨fun h => h.imp_right ih.1, fun token h => .inr (ih.2 token h)⟩
    | _ => simp [takePaths]

theorem mem_takeSection {opener : Token} {tokens : List Token} {p : Bytes} :
    (p ∈ (takeSection opener tokens).1 → .path p ∈ tokens) ∧
      ∀ token ∈ (takeSection opener tokens).2, token ∈ tokens := by
  cases tokens with
  | nil => simp [takeSection]
  | cons token rest =>
    simp only [takeSection]
    split
    · exact ⟨fun h => List.mem_cons_of_mem _ (mem_takePaths.1 h),
        fun t h => List.mem_cons_of_mem _ ((mem_takePaths (p := p)).2 t h)⟩
    · simp

/-- The paths of a statement that was read are tokens it was read from. -/
theorem mem_readEdge {tokens : List Token} {e : Edge} (h : readEdge tokens = some e) {p : Bytes}
    (hp : p ∈ e.outputs ++ e.explicit ++ e.implicit ++ e.orderOnly) : .path p ∈ tokens := by
  simp only [readEdge] at h
  have htokens := (@mem_takePaths tokens p).2
  split at h
  · rename_i rule rest hrest
    have hafter : ∀ token ∈ rest, token ∈ tokens := by
      intro token htoken
      exact htokens token (by rw [hrest]; simp [htoken])
    split at h
    · cases h
      have hexplicit := (@mem_takePaths rest p).2
      have himplicit := (@mem_takeSection .pipe (takePaths rest).2 p).2
      simp only [List.mem_append] at hp
      rcases hp with ((hp | hp) | hp) | hp
      · exact mem_takePaths.1 hp
      · exact hafter _ (mem_takePaths.1 hp)
      · exact hafter _ (hexplicit _ (mem_takeSection.1 hp))
      · exact hafter _ (hexplicit _ (himplicit _ (mem_takeSection.1 hp)))
    · cases h
  · cases h

theorem path_mem_tokens {e : WrittenEdge} {p : Bytes} :
    .path p ∈ e.tokens ↔ p = e.rule ∨ p ∈ e.paths := by
  simp only [WrittenEdge.tokens, WrittenEdge.paths, List.mem_append, List.mem_cons, List.mem_map,
    List.mem_flatMap, List.mem_flatten, Token.path.injEq, reduceCtorEq, false_or, exists_eq_right,
    or_assoc]
  exact or_left_comm

/-- A written statement is read as it is meant exactly when each of its paths can be written,
it has an output and it opens no section twice. -/
theorem read_written_iff {e : WrittenEdge} (hrule : Plain e.rule) :
    (lex .between (e.tokens.flatMap Token.print)).bind readEdge = some e.edge ↔
      (∀ p ∈ e.paths, Plain p) ∧ e.outputs ≠ [] ∧ e.implicit.length ≤ 1 ∧
        e.orderOnly.length ≤ 1 := by
  constructor
  · intro h
    obtain ⟨tokens, hlex, hread⟩ := Option.bind_eq_some_iff.mp h
    have hplain : ∀ p ∈ e.paths, Plain p :=
      fun p hp => plain_of_lex (s := .between) trivial hlex p (mem_readEdge hread hp)
    have htokens : ∀ p, .path p ∈ e.tokens → Plain p := by
      intro p hp
      rcases path_mem_tokens.mp hp with rfl | hp
      · exact hrule
      · exact hplain p hp
    rw [@lex_print _ htokens _ [] rfl, List.nil_append, Option.some.injEq] at hlex
    rw [← hlex, readEdge_tokens] at hread
    split at hread
    · rename_i hsections
      exact ⟨hplain, hsections⟩
    · cases hread
  · intro ⟨hplain, hsections⟩
    have htokens : ∀ p, .path p ∈ e.tokens → Plain p := by
      intro p hp
      rcases path_mem_tokens.mp hp with rfl | hp
      · exact hrule
      · exact hplain p hp
    rw [@lex_print _ htokens _ [] rfl, List.nil_append, Option.bind_some, readEdge_tokens,
      if_pos hsections]

end QStar.Lib.NinjaEdges
