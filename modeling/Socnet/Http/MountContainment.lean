import Socnet.Http.HttpServer

namespace Socnet.Http

/-- A path lies in a directory once its dot segments are resolved. The directory
itself counts. -/
def Below (dir path : Bytes) : Prop := segments dir <+: resolve path

instance (dir path : Bytes) : Decidable (Below dir path) := inferInstanceAs (Decidable (_ <+: _))

/-- What is put behind a directory either does not climb above it, or descends again
through the names of the directories it has left. -/
def Returns (dir rel : Bytes) : Prop :=
  let (levels, names) := Lib.Path.route DOT DOTDOT (segments rel)
  (segments dir).drop ((segments dir).length - levels) <+: names

instance (dir rel : Bytes) : Decidable (Returns dir rel) := inferInstanceAs (Decidable (_ <+: _))

theorem Mounted.below_iff {url dir : Bytes} (h : Mounted url dir) (rel : Bytes) :
    Below dir (dir ++ rel) ↔ Returns dir rel := by
  obtain ⟨-, base, rfl⟩ := h
  have hdir : segments (base.path ++ [SLASH]) = segments base.path :=
    Lib.Path.segments_concat SLASH base.path
  have hpath : segments (base.path ++ [SLASH] ++ rel) = segments base.path ++ segments rel := by
    rw [List.append_assoc]
    exact Lib.Path.segments_append_cons SLASH base.path rel
  unfold Below Returns resolve
  rw [hdir, hpath, Lib.Path.resolve_append, Lib.Path.resolve_of_plain DOT DOTDOT base.plain,
    List.nil_append]
  exact Lib.Path.below_iff DOT DOTDOT (segments base.path) (segments rel)

namespace HttpServer

variable (isRegular : Bytes → Bool) (php : Bytes → HttpRequest → HttpResponse → HttpResponse)
  (s : HttpServer) (req : HttpRequest)

/-- The index pages that are looked for in a directory, up to the first that exists. -/
def tried (dir : Bytes) : List Bytes → List Bytes
  | [] => []
  | page :: pages => page :: if exist isRegular (dir ++ page) then [] else tried dir pages

/-- What is put behind the path of a request: the index pages for a directory, and
nothing for a file. -/
def tails (path : Bytes) : List Bytes :=
  if path.getLast? = some SLASH then tried isRegular path s.defaultPages else [[]]

/-- The directories under which a URL is looked for, each with the rest of the URL:
those with a matching key, up to the first under which the URL is a directory or an
existing file. -/
def reached (url : Bytes) : List ((_ : Bytes) × Bytes) → List (Bytes × Bytes)
  | [] => []
  | ⟨pfx, dir⟩ :: mounts =>
    if pfx <+: url then
      let rel := url.drop pfx.length
      (dir, rel) ::
        if (dir ++ rel).getLast? = some SLASH ∨ exist isRegular (dir ++ rel) then []
        else reached url mounts
    else reached url mounts

theorem calls_getIndexPageFileName (dir : Bytes) (pages : List Bytes) :
    (getIndexPageFileName isRegular dir pages).2 =
      (tried isRegular dir pages).map fun page ↦ .exist (dir ++ page) := by
  induction pages with
  | nil => rfl
  | cons page pages ih =>
    rw [getIndexPageFileName, tried]
    split_ifs
    · rfl
    · dsimp only
      rw [ih, List.map_cons]

theorem found_getIndexPageFileName {dir path : Bytes} {pages : List Bytes}
    (h : (getIndexPageFileName isRegular dir pages).1 = some path) :
    ∃ page ∈ tried isRegular dir pages, path = dir ++ page := by
  induction pages with
  | nil => cases h
  | cons page pages ih =>
    rw [getIndexPageFileName] at h
    rw [tried]
    split_ifs at h ⊢
    · cases h
      exact ⟨page, List.mem_cons_self, rfl⟩
    · obtain ⟨page', hmem, heq⟩ := ih h
      exact ⟨page', .tail page hmem, heq⟩

theorem path_dispatchFound (path : Bytes) (resp : HttpResponse) :
    ∀ call ∈ (s.dispatchFound php req path resp).2, call.path = path := by
  intro call hcall
  unfold dispatchFound at hcall
  split_ifs at hcall
  · rw [List.mem_singleton.mp hcall]
    rfl
  · cases hcall
  · rw [List.mem_singleton.mp hcall]
    rfl

theorem status_dispatchFile (pfx url dir : Bytes) (resp : HttpResponse) :
    (s.dispatchFile isRegular php req pfx url dir resp).1 = true ↔
      (dir ++ url.drop pfx.length).getLast? = some SLASH ∨
        exist isRegular (dir ++ url.drop pfx.length) := by
  dsimp only [dispatchFile]
  split_ifs with hdir hexist
  · split
    · exact iff_of_true rfl (.inl hdir)
    · exact iff_of_true rfl (.inl hdir)
  · exact iff_of_true rfl (.inr hexist)
  · exact iff_of_false not_false fun h ↦ h.elim hdir hexist

theorem calls_dispatchFile (P : Bytes → Prop) (pfx url dir : Bytes) (resp : HttpResponse) :
    (∀ call ∈ (s.dispatchFile isRegular php req pfx url dir resp).2.2, P call.path) ↔
      ∀ tail ∈ s.tails isRegular (dir ++ url.drop pfx.length),
        P (dir ++ url.drop pfx.length ++ tail) := by
  dsimp only [dispatchFile, tails]
  generalize dir ++ url.drop pfx.length = path
  split_ifs with hdir hexist
  · have hcalls := calls_getIndexPageFileName isRegular path s.defaultPages
    have hfound (p : Bytes) : (getIndexPageFileName isRegular path s.defaultPages).1 = some p →
        ∃ page ∈ tried isRegular path s.defaultPages, p = path ++ page :=
      found_getIndexPageFileName isRegular
    generalize getIndexPageFileName isRegular path s.defaultPages = found at hcalls hfound
    obtain ⟨found, calls⟩ := found
    dsimp only at hcalls
    subst hcalls
    have hlist : (∀ call ∈ (tried isRegular path s.defaultPages).map
        (fun page ↦ Call.exist (path ++ page)), P call.path) ↔
        ∀ tail ∈ tried isRegular path s.defaultPages, P (path ++ tail) := List.forall_mem_map
    cases found with
    | none => exact hlist
    | some p =>
      obtain ⟨page, hpage, rfl⟩ := hfound p rfl
      dsimp only
      rw [List.forall_mem_append, hlist]
      refine and_iff_left_of_imp fun h call hcall ↦ ?_
      rw [s.path_dispatchFound php req _ resp call hcall]
      exact h page hpage
  · rw [List.forall_mem_cons, List.forall_mem_singleton, List.append_nil]
    refine and_iff_left_of_imp fun h call hcall ↦ ?_
    rw [s.path_dispatchFound php req _ resp call hcall]
    exact h
  · rw [List.forall_mem_singleton, List.forall_mem_singleton, List.append_nil]
    rfl

theorem calls_dispatchEach (P : Bytes → Bytes → Prop) (resp : HttpResponse)
    (mounts : List ((_ : Bytes) × Bytes)) :
    (∀ call ∈ (s.dispatchEach isRegular php req resp mounts).2.2, P call.1 call.2.path) ↔
      ∀ m ∈ reached isRegular req.url mounts, ∀ tail ∈ s.tails isRegular (m.1 ++ m.2),
        P m.1 (m.1 ++ m.2 ++ tail) := by
  induction mounts generalizing resp with
  | nil => simp [dispatchEach, reached]
  | cons mount mounts ih =>
    obtain ⟨pfx, dir⟩ := mount
    rw [dispatchEach, reached]
    by_cases hmatch : pfx <+: req.url
    · rw [if_pos hmatch, if_pos hmatch, List.forall_mem_cons]
      have hstatus := s.status_dispatchFile isRegular php req pfx req.url dir resp
      have hcalls := s.calls_dispatchFile isRegular php req (P dir) pfx req.url dir resp
      generalize s.dispatchFile isRegular php req pfx req.url dir resp = result at hstatus hcalls
      obtain ⟨status, resp', calls⟩ := result
      have hmap : (∀ call ∈ calls.map (dir, ·), P call.1 call.2.path) ↔
          ∀ call ∈ calls, P dir call.path := List.forall_mem_map
      cases status with
      | true =>
        rw [if_pos (hstatus.mp rfl)]
        dsimp only
        rw [hmap, hcalls]
        simp
      | false =>
        rw [if_neg (mt hstatus.mpr Bool.false_ne_true)]
        dsimp only
        rw [List.forall_mem_append, hmap, hcalls, ih]
    · rw [if_neg hmatch, if_neg hmatch]
      exact ih resp

theorem dir_of_mem_reached {url : Bytes} {m : Bytes × Bytes}
    {mounts : List ((_ : Bytes) × Bytes)} (h : m ∈ reached isRegular url mounts) :
    ∃ e ∈ mounts, e.2 = m.1 := by
  induction mounts with
  | nil => cases h
  | cons mount mounts ih =>
    obtain ⟨pfx, dir⟩ := mount
    rw [reached] at h
    dsimp only at h
    have hlater (h : m ∈ reached isRegular url mounts) : ∃ e ∈ (⟨pfx, dir⟩ :: mounts), e.2 = m.1 := by
      obtain ⟨e, he, heq⟩ := ih h
      exact ⟨e, .tail _ he, heq⟩
    split_ifs at h
    · rw [List.mem_singleton.mp h]
      exact ⟨⟨pfx, dir⟩, List.mem_cons_self, rfl⟩
    · rcases List.mem_cons.mp h with rfl | h
      · exact ⟨⟨pfx, dir⟩, List.mem_cons_self, rfl⟩
      · exact hlater h
    · exact hlater h

/-- A request stays in the mounted directories when under each directory in which it
is looked for, what stands behind the directory does not leave it for good. -/
theorem dispatchMountDir_below (resp : HttpResponse) :
    (∀ call ∈ (s.dispatchMountDir isRegular php req resp).2.2, Below call.1 call.2.path) ↔
      ∀ m ∈ reached isRegular req.url s.mountDir.entries,
        ∀ tail ∈ s.tails isRegular (m.1 ++ m.2), Returns m.1 (m.2 ++ tail) := by
  have hcalls : (s.dispatchMountDir isRegular php req resp).2.2 =
      (s.dispatchEach isRegular php req resp s.mountDir.entries).2.2 := by
    unfold dispatchMountDir
    split_ifs with hempty
    · rw [hempty]
      rfl
    · rfl
  rw [hcalls, s.calls_dispatchEach isRegular php req Below]
  refine forall₂_congr fun m hm ↦ forall₂_congr fun tail _ ↦ ?_
  obtain ⟨e, he, hdir⟩ := dir_of_mem_reached isRegular hm
  have hmounted := s.mounted e he
  rw [hdir] at hmounted
  rw [List.append_assoc]
  exact hmounted.below_iff (m.2 ++ tail)

theorem dispatchMountDir_escapes :
    ∃ s, (init [] false).addMountDir (ascii "/")
        ⟨ascii "/srv/www", by decide, by decide⟩ = .ok s ∧
      ∃ req, { HttpRequest.init .init with reqUrl := ascii "/%2e%2e/key" }.parseUrlQuery = .ok req ∧
        ¬ ∀ call ∈ (s.dispatchMountDir (fun path ↦ path = ascii "/srv/www/../key")
          (fun _ _ resp ↦ resp) req .init).2.2, Below call.1 call.2.path := by
  decide +kernel

end HttpServer

end Socnet.Http
