import Macro10.Text.Basic

/-!
# Upper case

Keywords are recognised by the upper-case form of a word, which is the full mapping of Unicode: most
letters have a single capital, and a few are written with two or three. Letters with a single
capital come in runs, which take every letter or every second one.
-/

namespace Macro10.Text

/-- Small letters from `first` to `last` by steps of `step`; the capital of `first` is
`capital` and the others follow at the same distances. -/
structure CaseRun where
  first : Nat
  last : Nat
  step : Nat
  capital : Nat
deriving Repr

/-- A run of one letter. -/
def CaseRun.one (letter capital : Nat) : CaseRun := ⟨letter, letter, 1, capital⟩

/-- The letters with a single capital, ascending. -/
def caseRuns : List CaseRun :=
  [⟨97, 122, 1, 65⟩, .one 181 924, ⟨224, 246, 1, 192⟩, ⟨248, 254, 1, 216⟩, .one 255 376,
   ⟨257, 303, 2, 256⟩, .one 305 73, ⟨307, 311, 2, 306⟩, ⟨314, 328, 2, 313⟩, ⟨331, 375, 2, 330⟩,
   ⟨378, 382, 2, 377⟩, .one 383 83, .one 384 579, ⟨387, 389, 2, 386⟩, .one 392 391, .one 396 395,
   .one 402 401, .one 405 502, .one 409 408, .one 410 573, .one 414 544, ⟨417, 421, 2, 416⟩,
   .one 424 423, .one 429 428, .one 432 431, ⟨436, 438, 2, 435⟩, .one 441 440, .one 445 444,
   .one 447 503, .one 453 452, .one 454 452, .one 456 455, .one 457 455, .one 459 458, .one 460 458,
   ⟨462, 476, 2, 461⟩, .one 477 398, ⟨479, 495, 2, 478⟩, .one 498 497, .one 499 497, .one 501 500,
   ⟨505, 543, 2, 504⟩, ⟨547, 563, 2, 546⟩, .one 572 571, ⟨575, 576, 1, 11390⟩, .one 578 577,
   ⟨583, 591, 2, 582⟩, .one 592 11375, .one 593 11373, .one 594 11376, .one 595 385, .one 596 390,
   ⟨598, 599, 1, 393⟩, .one 601 399, .one 603 400, .one 604 42923, .one 608 403, .one 609 42924,
   .one 611 404, .one 613 42893, .one 614 42922, .one 616 407, .one 617 406, .one 618 42926,
   .one 619 11362, .one 620 42925, .one 623 412, .one 625 11374, .one 626 413, .one 629 415,
   .one 637 11364, .one 640 422, .one 642 42949, .one 643 425, .one 647 42929, .one 648 430,
   .one 649 580, ⟨650, 651, 1, 433⟩, .one 652 581, .one 658 439, .one 669 42930, .one 670 42928,
   .one 837 921, ⟨881, 883, 2, 880⟩, .one 887 886, ⟨891, 893, 1, 1021⟩, .one 940 902,
   ⟨941, 943, 1, 904⟩, ⟨945, 961, 1, 913⟩, .one 962 931, ⟨963, 971, 1, 931⟩, .one 972 908,
   ⟨973, 974, 1, 910⟩, .one 976 914, .one 977 920, .one 981 934, .one 982 928, .one 983 975,
   ⟨985, 1007, 2, 984⟩, .one 1008 922, .one 1009 929, .one 1010 1017, .one 1011 895, .one 1013 917,
   .one 1016 1015, .one 1019 1018, ⟨1072, 1103, 1, 1040⟩, ⟨1104, 1119, 1, 1024⟩,
   ⟨1121, 1153, 2, 1120⟩, ⟨1163, 1215, 2, 1162⟩, ⟨1218, 1230, 2, 1217⟩, .one 1231 1216,
   ⟨1233, 1327, 2, 1232⟩, ⟨1377, 1414, 1, 1329⟩, ⟨4304, 4346, 1, 7312⟩, ⟨4349, 4351, 1, 7357⟩,
   ⟨5112, 5117, 1, 5104⟩, .one 7296 1042, .one 7297 1044, .one 7298 1054, ⟨7299, 7300, 1, 1057⟩,
   .one 7301 1058, .one 7302 1066, .one 7303 1122, .one 7304 42570, .one 7545 42877,
   .one 7549 11363, .one 7566 42950, ⟨7681, 7829, 2, 7680⟩, .one 7835 7776, ⟨7841, 7935, 2, 7840⟩,
   ⟨7936, 7943, 1, 7944⟩, ⟨7952, 7957, 1, 7960⟩, ⟨7968, 7975, 1, 7976⟩, ⟨7984, 7991, 1, 7992⟩,
   ⟨8000, 8005, 1, 8008⟩, ⟨8017, 8023, 2, 8025⟩, ⟨8032, 8039, 1, 8040⟩, ⟨8048, 8049, 1, 8122⟩,
   ⟨8050, 8053, 1, 8136⟩, ⟨8054, 8055, 1, 8154⟩, ⟨8056, 8057, 1, 8184⟩, ⟨8058, 8059, 1, 8170⟩,
   ⟨8060, 8061, 1, 8186⟩, ⟨8112, 8113, 1, 8120⟩, .one 8126 921, ⟨8144, 8145, 1, 8152⟩,
   ⟨8160, 8161, 1, 8168⟩, .one 8165 8172, .one 8526 8498, ⟨8560, 8575, 1, 8544⟩, .one 8580 8579,
   ⟨9424, 9449, 1, 9398⟩, ⟨11312, 11359, 1, 11264⟩, .one 11361 11360, .one 11365 570,
   .one 11366 574, ⟨11368, 11372, 2, 11367⟩, .one 11379 11378, .one 11382 11381,
   ⟨11393, 11491, 2, 11392⟩, ⟨11500, 11502, 2, 11499⟩, .one 11507 11506, ⟨11520, 11557, 1, 4256⟩,
   .one 11559 4295, .one 11565 4301, ⟨42561, 42605, 2, 42560⟩, ⟨42625, 42651, 2, 42624⟩,
   ⟨42787, 42799, 2, 42786⟩, ⟨42803, 42863, 2, 42802⟩, ⟨42874, 42876, 2, 42873⟩,
   ⟨42879, 42887, 2, 42878⟩, .one 42892 42891, ⟨42897, 42899, 2, 42896⟩, .one 42900 42948,
   ⟨42903, 42921, 2, 42902⟩, ⟨42933, 42947, 2, 42932⟩, ⟨42952, 42954, 2, 42951⟩, .one 42961 42960,
   ⟨42967, 42969, 2, 42966⟩, .one 42998 42997, .one 43859 42931, ⟨43888, 43967, 1, 5024⟩,
   ⟨65345, 65370, 1, 65313⟩, ⟨66600, 66639, 1, 66560⟩, ⟨66776, 66811, 1, 66736⟩,
   ⟨66967, 66977, 1, 66928⟩, ⟨66979, 66993, 1, 66940⟩, ⟨66995, 67001, 1, 66956⟩,
   ⟨67003, 67004, 1, 66964⟩, ⟨68800, 68850, 1, 68736⟩, ⟨71872, 71903, 1, 71840⟩,
   ⟨93792, 93823, 1, 93760⟩, ⟨125218, 125251, 1, 125184⟩]

/-- Eight letters in a row that are written with a subscript iota. -/
def subscripts (first capital : Nat) : List (Nat × List Nat) :=
  (List.range 8).map fun i => (first + i, [capital + i, 921])

/-- The characters whose upper-case form has more than one character, ascending. -/
def expansions : List (Nat × List Nat) :=
  (223, [83, 83]) ::
  ([(329, [700, 78]), (496, [74, 780]), (912, [921, 776, 769]), (944, [933, 776, 769]),
    (1415, [1333, 1362]), (7830, [72, 817]), (7831, [84, 776]), (7832, [87, 778]),
    (7833, [89, 778]), (7834, [65, 702]), (8016, [933, 787]), (8018, [933, 787, 768]),
    (8020, [933, 787, 769]), (8022, [933, 787, 834])] ++
   subscripts 8064 7944 ++ subscripts 8072 7944 ++ subscripts 8080 7976 ++
   subscripts 8088 7976 ++ subscripts 8096 8040 ++ subscripts 8104 8040 ++
   [(8114, [8122, 921]), (8115, [913, 921]), (8116, [902, 921]), (8118, [913, 834]),
    (8119, [913, 834, 921]), (8124, [913, 921]), (8130, [8138, 921]), (8131, [919, 921]),
    (8132, [905, 921]), (8134, [919, 834]), (8135, [919, 834, 921]), (8140, [919, 921]),
    (8146, [921, 776, 768]), (8147, [921, 776, 769]), (8150, [921, 834]), (8151, [921, 776, 834]),
    (8162, [933, 776, 768]), (8163, [933, 776, 769]), (8164, [929, 787]), (8166, [933, 834]),
    (8167, [933, 776, 834]), (8178, [8186, 921]), (8179, [937, 921]), (8180, [911, 921]),
    (8182, [937, 834]), (8183, [937, 834, 921]), (8188, [937, 921]), (64256, [70, 70]),
    (64257, [70, 73]), (64258, [70, 76]), (64259, [70, 70, 73]), (64260, [70, 70, 76]),
    (64261, [83, 84]), (64262, [83, 84]), (64275, [1348, 1350]), (64276, [1348, 1333]),
    (64277, [1348, 1339]), (64278, [1358, 1350]), (64279, [1348, 1341])])

/-- The capital of the code point `n`, if a run holds it. -/
def capitalOf (n : Nat) : List CaseRun → Option Nat
  | [] => none
  | run :: rest =>
    if n < run.first then none
    else if n ≤ run.last && (n - run.first) % run.step = 0 then some (run.capital + (n - run.first))
    else capitalOf n rest

/-- The expansion of the code point `n`, if it has one. -/
def expansionOf (n : Nat) : List (Nat × List Nat) → Option (List Nat)
  | [] => none
  | (m, points) :: rest =>
    if n < m then none else if n = m then some points else expansionOf n rest

def upperChar (c : Char) : List Char :=
  match capitalOf c.toNat caseRuns with
  | some n => [Char.ofNat n]
  | none =>
    match expansionOf c.toNat expansions with
    | some points => points.map Char.ofNat
    | none => [c]

/-- The upper-case form of a symbol; a stray byte has no case. -/
def upperSymbol : Symbol → Text
  | .char c => (upperChar c).map .char
  | .stray b => [.stray b]

def upper (t : Text) : Text := t.flatMap upperSymbol

@[simp]
theorem upper_nil : upper [] = [] := rfl

@[simp]
theorem upper_cons (s : Symbol) (t : Text) : upper (s :: t) = upperSymbol s ++ upper t := rfl

@[simp]
theorem upper_append (t u : Text) : upper (t ++ u) = upper t ++ upper u := by
  simp [upper]

end Macro10.Text
