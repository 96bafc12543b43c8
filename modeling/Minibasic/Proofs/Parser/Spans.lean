import Minibasic.Proofs.Expr.Children
import Minibasic.Proofs.Parser.Soundness

/-!
How the spans of nodes lie among tokens. A rule of the parser lays out the spans of what it reads
side by side, those of tokens and those of nodes, and a new node runs from the first to the last of
the spans that it is made of.
-/

namespace Minibasic

namespace Span

/-- The second span lies inside of the first. -/
def Encloses (s t : Span) : Prop :=
  s.start.offset ≤ t.start.offset ∧ t.stop.offset ≤ s.stop.offset

/-- The first span comes to its end before the second starts, or where it starts. -/
def Before (s t : Span) : Prop := s.stop.offset ≤ t.start.offset

/-- The span is not empty. It starts where one of the tokens starts and stops where one stops. -/
structure OfTokens (ts : List Token) (s : Span) : Prop where
  start : ∃ t ∈ ts, t.span.start = s.start
  stop : ∃ t ∈ ts, t.span.stop = s.stop
  nonempty : s.start.offset < s.stop.offset

theorem OfTokens.mono {ts us : List Token} {s : Span} (h : s.OfTokens ts) (hsub : ts ⊆ us) :
    s.OfTokens us where
  start := let ⟨t, ht, hs⟩ := h.start; ⟨t, hsub ht, hs⟩
  stop := let ⟨t, ht, hs⟩ := h.stop; ⟨t, hsub ht, hs⟩
  nonempty := h.nonempty

end Span

/-- The node has a span among the tokens that encloses those of its children, and these lie one
before the other. -/
structure Expr.Neat (ts : List Token) (n : Expr Span) : Prop where
  ofTokens : n.mark.OfTokens ts
  encloses : ∀ c ∈ n.children, n.mark.Encloses c.mark
  ordered : (n.children.map Expr.mark).Pairwise Span.Before

theorem Expr.Neat.mono {ts us : List Token} {n : Expr Span} (h : n.Neat ts) (hsub : ts ⊆ us) :
    n.Neat us where
  ofTokens := h.ofTokens.mono hsub
  encloses := h.encloses
  ordered := h.ordered

/-- The marks of the arms are the last ones of a choice. -/
theorem Arms.lastMark?_eq {α : Type} (as : Arms α) :
    as.lastMark? = (as.children.map Expr.mark).getLast? := by
  cases as with
  | done | otherwise => rfl
  | elif test body as =>
    rw [lastMark?, as.lastMark?_eq, children, List.map_cons, List.map_cons, List.getLast?_cons,
      List.getLast?_cons]
    rfl

namespace Parser

/-- The tokens are not empty and lie one before the other. -/
structure Ordered (ts : List Token) : Prop where
  nonempty : ∀ t ∈ ts, t.span.start.offset < t.span.stop.offset
  before : (ts.map Token.span).Pairwise Span.Before

/-- Among the tokens lie the spans, one before the other, and all nodes of the expressions. -/
structure Laid (ts : List Token) (es : List Node) (spans : List Span) : Prop where
  neat : ∀ e ∈ es, ∀ n ∈ e.nodes, n.Neat ts
  ofTokens : ∀ s ∈ spans, s.OfTokens ts
  before : spans.Pairwise Span.Before

namespace Laid

variable {ts us : List Token} {es es' : List Node} {spans spans' : List Span} {first last : Span}

theorem nil : Laid ts [] [] where
  neat := List.forall_mem_nil _
  ofTokens := List.forall_mem_nil _
  before := .nil

theorem token {t : Token} (h : t.span.start.offset < t.span.stop.offset) :
    Laid [t] [] [t.span] where
  neat := List.forall_mem_nil _
  ofTokens := List.forall_mem_singleton.mpr
    ⟨⟨t, List.mem_cons_self, rfl⟩, ⟨t, List.mem_cons_self, rfl⟩, h⟩
  before := List.pairwise_singleton _ _

/-- What is laid out over tokens lies before what is laid out over those behind them. -/
theorem append (hord : Ordered (ts ++ us)) (h : Laid ts es spans) (h' : Laid us es' spans') :
    Laid (ts ++ us) (es ++ es') (spans ++ spans') where
  neat e he n hn := by
    rcases List.mem_append.mp he with he | he
    · exact (h.neat e he n hn).mono (List.subset_append_left ts us)
    · exact (h'.neat e he n hn).mono (List.subset_append_right ts us)
  ofTokens s hs := by
    rcases List.mem_append.mp hs with hs | hs
    · exact (h.ofTokens s hs).mono (List.subset_append_left ts us)
    · exact (h'.ofTokens s hs).mono (List.subset_append_right ts us)
  before := by
    refine List.pairwise_append.mpr ⟨h.before, h'.before, fun s hs s' hs' => ?_⟩
    obtain ⟨t, ht, hstop⟩ := (h.ofTokens s hs).stop
    obtain ⟨u, hu, hstart⟩ := (h'.ofTokens s' hs').start
    have hord := hord.before
    rw [List.map_append, List.pairwise_append] at hord
    have htu := hord.2.2 _ (List.mem_map_of_mem ht) _ (List.mem_map_of_mem hu)
    rwa [Span.Before, hstop, hstart] at htu

theorem sublist (h : Laid ts es spans) (hsub : spans'.Sublist spans) : Laid ts es spans' where
  neat := h.neat
  ofTokens s hs := h.ofTokens s (hsub.subset hs)
  before := h.before.sublist hsub

/-- From the first of the spans to the last one encloses all of them. -/
theorem encloses (h : Laid ts es spans) (hfirst : spans.head? = some first)
    (hlast : spans.getLast? = some last) : ∀ s ∈ spans, (first.join last).Encloses s := by
  intro s hs
  have hnonempty := (h.ofTokens s hs).nonempty
  constructor
  · obtain ⟨tail, rfl⟩ := List.head?_eq_some_iff.mp hfirst
    rcases List.mem_cons.mp hs with rfl | hs
    · exact Nat.le_refl _
    · have hbefore : first.stop.offset ≤ s.start.offset := (List.pairwise_cons.mp h.before).1 s hs
      have hpos := (h.ofTokens first List.mem_cons_self).nonempty
      exact Nat.le_trans (Nat.le_of_lt hpos) hbefore
  · obtain ⟨init, rfl⟩ := List.getLast?_eq_some_iff.mp hlast
    have hmem : last ∈ init ++ [last] := List.mem_append_right _ List.mem_cons_self
    rcases List.mem_append.mp hs with hs | hs
    · have hbefore : s.stop.offset ≤ last.start.offset :=
        (List.pairwise_append.mp h.before).2.2 s hs last List.mem_cons_self
      exact Nat.le_trans hbefore (Nat.le_of_lt (h.ofTokens last hmem).nonempty)
    · rw [List.mem_singleton.mp hs]
      exact Nat.le_refl _

/-- A node made of what is laid out. -/
theorem node {n : Node} (h : Laid ts es spans) (hchildren : n.children ⊆ es)
    (hmarks : (n.children.map Expr.mark).Sublist spans) (hfirst : spans.head? = some first)
    (hlast : spans.getLast? = some last) (hmark : n.mark = first.join last) :
    Laid ts [n] [n.mark] := by
  have hencloses := h.encloses hfirst hlast
  have hf := h.ofTokens first (List.mem_of_head? hfirst)
  have hl := h.ofTokens last (List.mem_of_getLast? hlast)
  have hmarkOf : n.mark.OfTokens ts := by
    rw [hmark]
    refine ⟨hf.start, hl.stop, ?_⟩
    exact Nat.lt_of_lt_of_le hf.nonempty (hencloses first (List.mem_of_head? hfirst)).2
  have hneat : n.Neat ts := by
    refine ⟨hmarkOf, fun c hc => ?_, h.before.sublist hmarks⟩
    rw [hmark]
    exact hencloses c.mark (hmarks.subset (List.mem_map_of_mem hc))
  refine ⟨List.forall_mem_singleton.mpr ?_, List.forall_mem_singleton.mpr hmarkOf,
    List.pairwise_singleton _ _⟩
  intro k hk
  rw [n.nodes_eq] at hk
  rcases List.mem_cons.mp hk with rfl | hk
  · exact hneat
  · obtain ⟨c, hc, hk⟩ := List.mem_flatMap.mp hk
    exact h.neat c (hchildren hc) k hk

end Laid

/-- The expressions and the spans are laid out over the tokens up to `rest`. -/
def Lays (es : List Node) (spans : List Span) (ts rest : List Token) : Prop :=
  ∃ read, ts = read ++ rest ∧ (∀ t ∈ read, t.lexeme ≠ .eof) ∧ (Ordered read → Laid read es spans)

theorem Ordered.of_append {ts us : List Token} (h : Ordered (ts ++ us)) :
    Ordered ts ∧ Ordered us := by
  have hbefore := h.before
  rw [List.map_append, List.pairwise_append] at hbefore
  exact ⟨⟨fun t ht => h.nonempty t (List.mem_append_left us ht), hbefore.1⟩,
    ⟨fun t ht => h.nonempty t (List.mem_append_right ts ht), hbefore.2.1⟩⟩

namespace Lays

variable {ts mid rest : List Token} {es es' : List Node} {spans spans' : List Span}
  {l : Lexeme} {first last : Span}

theorem nil : Lays [] [] ts ts := ⟨[], rfl, List.forall_mem_nil _, fun _ => .nil⟩

theorem token (hl : lexemeAt ts = l) (he : l ≠ .eof) : Lays [] [spanAt ts] ts ts.tail := by
  obtain ⟨s, ts, rfl⟩ := exists_cons_of_lexemeAt hl he
  refine ⟨[⟨l, s⟩], rfl, List.forall_mem_singleton.mpr he, fun h => ?_⟩
  exact .token (h.nonempty _ List.mem_cons_self)

theorem append (h : Lays es spans ts mid) (h' : Lays es' spans' mid rest) :
    Lays (es ++ es') (spans ++ spans') ts rest := by
  obtain ⟨a, rfl, ha, hlaid⟩ := h
  obtain ⟨b, rfl, hb, hlaid'⟩ := h'
  refine ⟨a ++ b, (List.append_assoc a b rest).symm, ?_, fun hord => ?_⟩
  · exact List.forall_mem_append.mpr ⟨ha, hb⟩
  · exact .append hord (hlaid hord.of_append.1) (hlaid' hord.of_append.2)

/-- A token in front of what is laid out. -/
theorem cons (hl : lexemeAt ts = l) (he : l ≠ .eof) (h : Lays es spans ts.tail rest) :
    Lays es (spanAt ts :: spans) ts rest :=
  (token hl he).append h

/-- A token that ends what is laid out. -/
theorem concat (h : Lays es spans ts mid) (hl : lexemeAt mid = l) (he : l ≠ .eof) :
    Lays es (spans ++ [spanAt mid]) ts mid.tail := by
  have happend := h.append (token hl he)
  rwa [List.append_nil] at happend

theorem sublist (h : Lays es spans ts rest) (hsub : spans'.Sublist spans) :
    Lays es spans' ts rest := by
  obtain ⟨read, hts, hread, hlaid⟩ := h
  exact ⟨read, hts, hread, fun hord => (hlaid hord).sublist hsub⟩

/-- A token in front that no node starts with. -/
theorem skip (hl : lexemeAt ts = l) (he : l ≠ .eof) (h : Lays es spans ts.tail rest) :
    Lays es spans ts rest :=
  (cons hl he h).sublist (List.sublist_cons_self _ _)

/-- A token behind that no node ends with. -/
theorem skip_end (h : Lays es spans ts mid) (hl : lexemeAt mid = l) (he : l ≠ .eof) :
    Lays es spans ts mid.tail :=
  (concat h hl he).sublist (List.sublist_append_left _ _)

theorem node {n : Node} (h : Lays es spans ts rest) (hchildren : n.children ⊆ es)
    (hmarks : (n.children.map Expr.mark).Sublist spans) (hfirst : spans.head? = some first)
    (hlast : spans.getLast? = some last) (hmark : n.mark = first.join last) :
    Lays [n] [n.mark] ts rest := by
  obtain ⟨read, hts, hread, hlaid⟩ := h
  exact ⟨read, hts, hread, fun hord => (hlaid hord).node hchildren hmarks hfirst hlast hmark⟩

/-- A node that starts with a token and ends with its last child. -/
theorem headed {n : Node} (hl : lexemeAt ts = l) (he : l ≠ .eof)
    (h : Lays es (es.map Expr.mark) ts.tail rest) (hchildren : n.children = es)
    (hlast : (es.map Expr.mark).getLast? = some last) (hmark : n.mark = (spanAt ts).join last) :
    Lays [n] [n.mark] ts rest := by
  subst hchildren
  refine (cons hl he h).node (List.Subset.refl _) (List.sublist_cons_self _ _) rfl ?_ hmark
  rw [List.getLast?_cons, hlast]
  rfl

/-- A node of a single token. -/
theorem leaf {n : Node} (hl : lexemeAt ts = l) (he : l ≠ .eof) (hchildren : n.children = [])
    (hmark : n.mark = spanAt ts) : Lays [n] [n.mark] ts ts.tail :=
  (token hl he).node (by simp [hchildren]) (by simp [hchildren]) rfl rfl hmark

/-- Tokens that no node is made of. -/
theorem of_takes {w : List Lexeme} (h : Takes w ts rest) (hw : .eof ∉ w) : Lays [] [] ts rest := by
  obtain ⟨read, rfl, rfl⟩ := h
  refine ⟨read, rfl, fun t ht he => hw ?_, fun _ => .nil⟩
  rw [← he]
  exact List.mem_map_of_mem ht

end Lays

end Parser

end Minibasic
