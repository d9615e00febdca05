import IncrementalParsing.Unicode.Coding

/-!
# Scripts

`scriptRuns` covers the code points in order by runs of one script; `0` is no script, and `i + 1`
the `i`-th of `scriptNames`.  `scriptExtensionRanges` holds, for each script in the same order, the
code points used with it.  The data are those of Unicode 16.
-/

namespace IncrementalParsing.Unicode

/-- The names of each script, separated by blanks, the long one first. -/
def scriptNames : List String :=
  ["adlam adlm", "ahom", "anatolianhieroglyphs hluw", "arabic arab", "armenian armn",
   "avestan avst", "balinese bali", "bamum bamu", "bassavah bass", "batak batk", "bengali beng",
   "bhaiksuki bhks", "bopomofo bopo", "brahmi brah", "braille brai", "buginese bugi",
   "buhid buhd", "canadianaboriginal cans", "carian cari", "caucasianalbanian aghb",
   "chakma cakm", "cham", "cherokee cher", "chorasmian chrs", "common zyyy", "coptic copt qaac",
   "cuneiform xsux", "cypriot cprt", "cyprominoan cpmn", "cyrillic cyrl", "deseret dsrt",
   "devanagari deva", "divesakuru diak", "dogra dogr", "duployan dupl",
   "egyptianhieroglyphs egyp", "elbasan elba", "elymaic elym", "ethiopic ethi", "garay gara",
   "georgian geor", "glagolitic glag", "gothic goth", "grantha gran", "greek grek",
   "gujarati gujr", "gunjalagondi gong", "gurmukhi guru", "gurungkhema gukh", "han hani",
   "hangul hang", "hanifirohingya rohg", "hanunoo hano", "hatran hatr", "hebrew hebr",
   "hiragana hira", "imperialaramaic armi", "inherited qaai zinh", "inscriptionalpahlavi phli",
   "inscriptionalparthian prti", "javanese java", "kaithi kthi", "kannada knda",
   "katakana kana", "kawi", "kayahli kali", "kharoshthi khar", "khitansmallscript kits",
   "khmer khmr", "khojki khoj", "khudawadi sind", "kiratrai krai", "lao laoo", "latin latn",
   "lepcha lepc", "limbu limb", "lineara lina", "linearb linb", "lisu", "lycian lyci",
   "lydian lydi", "mahajani mahj", "makasar maka", "malayalam mlym", "mandaic mand",
   "manichaean mani", "marchen marc", "masaramgondi gonm", "medefaidrin medf",
   "meeteimayek mtei", "mendekikakui mend", "meroiticcursive merc", "meroitichieroglyphs mero",
   "miao plrd", "modi", "mongolian mong", "mro mroo", "multani mult", "myanmar mymr",
   "nabataean nbat", "nagmundari nagm", "nandinagari nand", "newtailue talu", "newa",
   "nko nkoo", "nushu nshu", "nyiakengpuachuehmong hmnp", "ogham ogam", "olchiki olck",
   "olonal onao", "oldhungarian hung", "olditalic ital", "oldnortharabian narb",
   "oldpermic perm", "oldpersian xpeo", "oldsogdian sogo", "oldsoutharabian sarb",
   "oldturkic orkh", "olduyghur ougr", "oriya orya", "osage osge", "osmanya osma",
   "pahawhhmong hmng", "palmyrene palm", "paucinhau pauc", "phagspa phag", "phoenician phnx",
   "psalterpahlavi phlp", "rejang rjng", "runic runr", "samaritan samr", "saurashtra saur",
   "sharada shrd", "shavian shaw", "siddham sidd", "signwriting sgnw", "sinhala sinh",
   "sogdian sogd", "sorasompeng sora", "soyombo soyo", "sundanese sund", "sunuwar sunu",
   "sylotinagri sylo", "syriac syrc", "tagalog tglg", "tagbanwa tagb", "taile tale",
   "taitham lana", "taiviet tavt", "takri takr", "tamil taml", "tangsa tnsa", "tangut tang",
   "telugu telu", "thaana thaa", "thai", "tibetan tibt", "tifinagh tfng", "tirhuta tirh",
   "todhri todr", "toto", "tulutigalari tutg", "ugaritic ugar", "vai vaii", "vithkuqi vith",
   "wancho wcho", "warangciti wara", "yezidi yezi", "yi yiii", "zanabazarsquare zanb"]

/-- Runs of one script, in order. -/
def scriptRuns : List (Nat × Nat) := decodePairs
  ["eAbJbJeKFbJbJeKcObJAeKObJAeKEbJbGeKAbJbOeKAbJbmAeKcGbJEeKEbJBNbDbJgPdKDcNAbJCcNBADcNAbJAcNDA",
   "AcNAbJAcNAbJCcNAAAcNAAbDcNAAdOcNNbKPcNiEbOBdKkIbOAAcFFBAdBFBACFAAdGdHHAbKdHDAFdHKAEEAbJFEAbJ",
   "NEAbJCEAbJbPEAbJJEKdKbJEAdKgLEAbJcBENjAAAdLjABACjAcPEdBjLNAdKgJBACgJcNiDBAOiDAAbLfFBAAfFAAKj",
   "AEAbOEAABEEAeKEAbJbMEfAcADdKOcABbJbJcADLAAHLBABLBAbFLAAGLAAALCADLBAILBABLBADLHAALDABLAAELBAb",
   "ILBACdAAAFdADABdABAbFdAAAGdAAABdAAABdAAABdABAAdAAAEdADABdABACdACAAdAGADdAAAAdAGAbAdAJACcOAAI",
   "cOAACcOAAbFcOAAGcOAABcOAAEcOBAJcOAACcOAACcOBAAcOOADcOBALcOGAGcOAAChIAAHhIBABhIBAbFhIAAGhIAAB",
   "hIAAEhIBAIhIBABhIBAChIGAChIDABhIAAEhIBAbBhIJABjHAAFjHCACjHAADjHCABjHAAAjHAABjHCABjHCACjHCALj",
   "HDAEjHCACjHAADjHBAAjHFAAjHNAbEjHEAMjKAACjKAAbGjKAAPjKBAIjKAACjKAADjKGABjKAACjKBAAjKBADjKBAJj",
   "KGAIjKMdPAACdPAAbGdPAAJdPAAEdPBAIdPAACdPAADdPGABdPFABdPAADdPBAJdPAACdPLAMfEAACfEAAdCfEAACfEA",
   "AFfEDAPfEBAbJfEAACiJAAbBiJCAbHiJAAIiJAAAiJBAGiJCAAiJDAFiJAAAiJAAHiJFAJiJBACiJLAdJjMDAAbJbLjM",
   "cEABeJAAAeJAAEeJAAbHeJAAAeJAAbGeJBAEeJAAAeJAAGeJAAJeJBADeJbPAeHjNAAcDjNDAcGjNAAcDjNAAOjNAAGj",
   "NDbJBjNcEAjPgDcFcJAAAcJEAAcJBAcKcJAbJDcJpPdDeIcHAADcHBAGcHAAAcHAADcHBAcIcHAADcHBAcAcHAADcHBA",
   "GcHAAAcHAADcHBAOcHAAdIcHAADcHBAeCcHBAbPcHCAbJcHFAfFbHBAFbHBAchPbCbMgMCAeKiCCbJKiCGAbFjBIAAjB",
   "bEdFBbJIAbDbBLAMjCAACjCAABjCLAfNeFBAJeFFAJeFFABgABbJAgAAbJbDgAFAfIgAGAcKgAEAeFbCJAbOeMAALeMD",
   "ALeMDAAeMCALeMbNjDBAEjDKAcLgHDAbJgHFAKgHCABgHbPeFbLbABABbAdOjEAAbMjEBAKjEFAJjEFANjEBAbOdKdAA",
   "eMHAAdBHdPiNdDKHADKdHeLCAOeLCACeLcPgNKbOEAcKcJBACcJHiNHACdKAbJMdKAbJGdKDbJAdKFbJAdKCbJBdKAbJ",
   "EAcFeKEcNAbOdAeKEcNDeKEcNMeKAbOeFeKAcNdPdKpPeKbFcNBAFcNBAcFcNBAFcNBAHcNAAAcNAAAcNAAAcNAAbOcN",
   "BAdEcNAAOcNAANcNBAFcNAAbCcNBACcNAAIcNAALbJBdKfGbJAAKbJAeKBAKbJAeKObJAAMeKCAcAbJOAcAdKOAcFbJA",
   "cNCbJBeKFbJAeKbKbJAeKbAbJcIeKCbJDAcjJbJbFAKbJbEAdjPbJpPPchDbJBAbPbJAAgIbJfPcKbPeKhDbKEAGbKcF",
   "cJAAAcJEAAcJBAdHjOGABjONAAjObGcHIAGcHAAGcHAAGcHAAGcHAAGcHAAGcHAAGcHAAGcHAAbPbOfNbJcBAbJdCAAf",
   "IdCLAnFdCbJAbEbJAdCAbJAdCbIbJIdCDdKBdDHbJDdCDbJAAfFdIBABdKBbJCdIAbJfJeABbJCeAEAcKNAAfNdDAAPb",
   "JbPNcFbJIAAbJPeAbOdDAAdPbJbOdDfAbJcOeAAbJfHeAkHbJbjlPdCdPbJfbpPdCeiMkJCAdGkJIAcPePbcLkEbDAfP",
   "bOfHIHAcBbJgFeKCbJeCeKBABeKAAAeKAAHeKbEANeKcMiPCAJbJFAdHhOHAeFiEHALiEFAbPcAcNeCAbJAeCcDiBKAA",
   "iBbMdDCAeNdNAAAbJJdNDABdNbOgDAAdGbGIANbGBAJbGBADbGbPgDeCjFbHAEjFbGfKJAFcHBAFcHBAFcHIAGcHAAGc",
   "HAAcKeKAbJIeKAcNDeKBbJDAePbHcNfKBAJfKFAclkDdDLAbGdDDAdAdDcbaDAbgNdCBAgJdCcFAGeKLAEFEAbJdHAAE",
   "dHAAAdHAABdHAABdHAAJdHhCEPAbgKEBbJePEBAdFEGAAEbPAPEPdKJbJFANdKBbOcCbJAAbCbJAADbJDAEEAAiGEBAA",
   "bJAAbPbJbJeKFbJbJeKKbJJeAAbJcMeABbJbOdDCAFdDBAFdDBAFdDBACdDCAGbJAAGbJJAEbJBALeOAAbJeOAAbCeOA",
   "ABeOAAOeOBANeOcBAhKeOEACbJDAcMbJCAIbJeOcNAAMbJCAAcNcOAcMbJAdKiBAbMfACAdAbDOAAdKbKbJDAcDhAIAC",
   "hAbKcLEAcKhCEAbNkDAAAkDcDhDDANhDcJAePbPcPiGbNhKBAJhKFAcDhJDAcDhJDAcHcFHAdDbEKAAbEKkFAAOkFAAG",
   "kFAABkFAAKkFAAOkFAAGkFAABkFCAdDkALAbdGeNIAbFeNJAHeNbHAFeKAAcJeKAAIeKeEAFbMBAAbMAAcLbMAABbMCA",
   "AbMBAAbMbFdJAAIdJbPhMbOgEHAIgEcPAbCdGAABdGEAEdGbLhPCAAhPbJfBEAAfBdPAbPfNbHfMDAbDfMBAcNfMDeDA",
   "ABeDEAHeDAACeDAAbMeDBACeDDAJeDGAIeDGAbPhFbPhBbPAcGfGDALfGIAdFGCAGGbFdMBAHdMbCdLEAHdLbBiAGADi",
   "ALAGiAePAeIhGdGAdCgPMAdCgPGAFgPcHdEHAJdEFAcFcICAbMcIHABcImPAbOEAAcJkIAACkIBABkIPACEdGADEcHhE",
   "HAcJiKbFAbJhHcFAbLbIbDAbGcGIAeNODAcDOIAAOeCdOJAAdOBAbIiLGAJiLFAdEbFAAbBbFHAcGfCIAfPiFAAbDiJK",
   "AbBeGAAcOeGdNAGgCAAAgCAADgCAAOgCAAKgCFAdKeHEAJeHFADcMAAHcMBABcMBAbFcMAAGcMAABcMAAEcMAAAdKIcM",
   "BABcMBACcMBAAcMFAAcMEAGcMBAGcMCAEcMKAJkCAAAkCBAAkCAAcFkCAAJkCAAAkCBAAkCAADkCAAJkCAABkCHABkCb",
   "MAfLgIAAEgIbNAeHjPHAJjPkFAdFiHBAcFiHcBAeEfPKAJfPFAMgAbCAdJjGFAJjGFAbDgDbLAbKCBAOCDAbGClIAdLc",
   "CgDAfCkHLAAkHGcBBAAcBBAHcBAABcBAAbNcBAABcBBALcBIAJcBeFAHgGBAcNgGBAKgGbKAeHkKHAfCiMMAPbCdIhNG",
   "AJcAlFAcBiONAJiOFAIMAAcMMAANMJAbMMCAbPfHBAbFfHAANfHeIAGfIAABfIAAcLfICAAfIAABfIAAIfIHAJfIFAFc",
   "PAABcPAAcEcPAABcPAAFcPGAJcPbdFAbIfDGAbAeBAAcIeBCAbMeBfEAAePOAdBjHMAAjHdjJbLgFAgObLAAEbLKAmDb",
   "LkeLAgCbNMAefFcEJApjKcEEAceGDbklIAdJdBgmFAcdIIGAbOgBAAJgBDABgBeOjIAAJjIFAbNJBAFJJAeFhLJAJhLA",
   "AGhLAAbEhLEAbChLbkPAdJeImFAfKfJgEAeKfODAdIfOGAbAfOdPAAjJAgKBdCAeEKABdCNAbhpHjJHAcpPjJbnFeEcI",
   "AAeEIjJccoGADeAAAGeAAABeAAAAeAbbOdICeAOAAdIbMACdIBAAeANADeAHAbiLgKjaDAgKcDEAMcDCAIcDGAJcDBAD",
   "cDDbJpfLApJbJFAblDbJeLAcNdKBAbGdKIAhDbJdLApFbJJAcGbJBAdNbJCdKbAbJHdKBbJGdKbNbJDdKdMbJbEAeFcN",
   "hJAbDbJLAbDbJLAfGbJIAbIbJiGAfEbJAAeGbJAABbJBAAbJBABbJBADbJAALbJAAAbJAAGbJAAeAbJAADbJBAHbJAAG",
   "bJAAbLbJAADbJAAEbJAAAbJCAGbJAAbfDbJBAbcDbJBAdBbJciLiIOAEiIAAOiIeePAbOeKFAFeKnEAGcKAAbAcKBAGc",
   "KAABcKAAEcKEAdNbOcAAAbOgPAcMgLCANgLBAJgLDABgLbdPAbOkBbAAdJkGEAAkGbmPAcJgFnFAcKgODAAgObnPAGcH",
   "AADcHAABcHAAOcHAAmEfLBAPfLcIAeLBDAJBDABBdbAAeDbJeLAdMbJmBADEAAbKEAABEAAAEBAAEAAJEAADEAAAEAAA",
   "EFAAEDAAEAAAEAAAEAACEAABEAAAEBAAEAAAEAAAEAAAEAAAEAABEAAAEBADEAAGEAADEAADEAAAEAAJEAAbAEEACEAA",
   "EEAAbAEdDABEbaNAcLbJDAgDbJLAObJBAObJAAObJAAcEbJJAkNbJdHAbJbJAdIBbJMAcLbJDAIbJGABbJNAFbJjJAdn",
   "HbJDAbAbJCAMbJCAhGbJDAfObJFALbJDAAbJOALbJDAdHbJHAJbJFAcHbJHAbNbJBALbJDABbJdNAbfDbJLANbJBAMbJ",
   "CAJbJEAdHbJGAObJBAKbJFAIbJGAjCbJAAgFbJeaFAkgnPdCbPAbadJdCFAnNdCBAbgiBdCNAbndAdCOAcgNdCjkBAcb",
   "NdCfoBAbdeKdCEAbafPdCknmfAAAbJbNAfPbJhPAoPdKcpoaPA"]

/-- The ranges of each script's extension, as a gap and a length each. -/
def scriptExtensionRanges : List String :=
  ["gbPAcAAbkaOAnpBAblklOeLEJEB", "bbhaAbKCOEbG", "beeaAceG",
   "gaAEBnGBcBfAcPpAbOBBFeKBbMbhePAnpBAmnaOhCbAblMCdFHAcAPhAEBiGdoDbLlgEbOeDCdHDnpaADBbKBBBACABJBDBABAGAEABABABCBBBACABABABABABBBACDBGBDBDBABJBbAFCBEBbAdEB",
   "daIAccIcFCdBCCpfiDE", "lHAcnhIBnmmOdFDG", "blaAeMBdB", "kgkAfHmbaIcdI", "bgknAbNCF",
   "blmAdDID", "clMAgjEBbBBbKDBHCBCbFBGBADDCICBCDIAEBBECbIbcnBABACBBAIAIACAEACCilpJA",
   "bbmaAIBcMBNKbM", "cmHABCNAbABcnbFCEJBMKDCAGAmDAJcKhAbPmmiFBbbKE", "bbaaAeNEcDJA", "ciaApP",
   "bkaAbLCBipkPA", "bhdFBJbD", "beaAchPcdAeFbablKP", "lHAbpkCACAnnDAnegOdA",
   "daEAcMAcMAbabnBdDLA", "joGJgfAJbaalGdEBbB", "kkaAdGJNCJCD", "daACBAGBbGBLBbagOfFCFjhhCeP",
   "baplAbL",
   "AeAbKFbKcOBLBBBEbHAbPAbmBCBJBADABIBABFFECbDhOAGABAchNAnHAcaEAffMAbjFDbacHLCcABbOBJBBBGBKDKBObBcAdPcFBCCFBbKBbAcJCEcjJbGKbFdjPbaAchDCbPBgIcaAbGBbHCJBDBABbJbkCADANANAbFAcbBbHbPAdBOMDkBJFfPbPAbjmAdPfjaIbJgGCdnAAOBfckEJbGbECLBbCBDjDABbPbKFbKFhPGBGKEbjCMdDcMmkaDpJGblDjMhDdMpFKcGCdNDbAIBHbNEdMnFbDMbDMfGbLGiHfEBeGBBCACBCDBLBABGBeABDCHBGBbLBDBEBADGBbfDCbcDCdBbehBeDeMdMcmCcLEgDMOCOBOBcEKkNdIbJBBNcLEIbHFjKdnHEbADMDhGEfOGLEAPLEdHIJGcHIbNCLEBdObfDMNCMDJFdHHOCKGIHjCBgFmaeaHAbOfP",
   "lHAceIADBBAgMBgMNcijAhDFGbbHAnemIbL", "bcaaAdjJgGgOBELmD", "babaACEcMDIgmAFCABcLBBDACA",
   "babaABcoiOgC", "clMAeDCBABABACAFAoObcPbhfAKkAAeMAhPApoHbPeDAhhpMfPfhiOBocaAdNcBA",
   "baeaAeP", "clMAgeDfCCcKbdfAcGBBdpGAihdPJkGbPhcaAJ", "bbjaAGCACHBBBbNBBCLJJ",
   "jgELjomAJgpmGdL", "lHAcePBBAbIBclbHAbinmDgKFMDIHJCH", "bdaaAefFKpjK", "lHAceNAbabpKcH",
   "bapoAbG",
   "daOAopBeIBDCGBABDCcIBDCcABDCGBABDCOBdIBDCeCCbPDbJbjoGbGJGBGBGBGBGBGBGBGhncCFCFCFJGBGbdmlBGBDBBBO",
   "gaMAOADAbahcAcFDbMIB", "lHAenBAlbGcFBAFACcPljAcKCCdjKAmkFcFBAFAbaDA",
   "lHAceLABAbhOACAbaBAlhBApfOAlkFfPboDAhicLAbdjjAGBbACGBBBE", "lHAceMBCAcIApppObK",
   "jfBBbBBciANbanMABBbOCDBdpGApcaPDBHCBCbFBGBBBEBJCBCCCAGAFGCGDEmfLBBA",
   "lHAceIBCABABAKAcOACAcKHCDBAEABABCBABbDBdOOPbjcGEdCEEEfECbdObFCFCcFCFCHBABABABbOCdEBOBNCFBbCCCBIfOAmIAikdOAffnKeObBAnafPeF",
   "jfBBbBBbbLCBIBCBbFBGBBBECJBCBCCAPDCLHGjndAJ", "lHAikMBbbdpKFBBBcEBBBFHJ",
   "jfBBbBBjLCBFEBCbFBGBBBBBBCABEEBCCDAHDBAHbAjnlJJ", "jgFAbfhjKdJ",
   "lHAcnmIbJBfIMnFbKPBCBMBMBMCAGIlLAjEPcAcFJAdAcHdIdAPLdDAfIbIKEgAbOBbjlPeAfbpPhaAHfbpIbgNCgJdgLBbbKEhahMBMBgdgObBbonOBnkOkgnPcAbadJGnNCbgiBObndAPcgNjkCcbNfoCbdeKFbafP",
   "bbaApPboaBCEJBMOCGAmDAdFfNhBbOeBbOhgoBbMciDclkDMbGEdAcgeJBbbKEdKbODFCFCFCC",
   "gaMAOADAcAAjDAbagcLcHIJ", "bhcAbG", "baioAbCBBFE", "daHBciIdGIbKEFpfcIbJBEBABBBBBJ",
   "daaBCEJBMbAFBAEBDfFCHfKBmneIBbbKEKAcNBlagBbbObCAbNCeakNA", "baieAbFBI",
   "daPACABLBBDGCACPBBBbBBEBDfpABbbfLbOcpDdFBABEcaMBmCbPnnbAPbANdmPAmnaCcNCbGccACbBHCGbODmcpfCoP",
   "balgAbCFH", "baleAbFCH", "kjiAeNBKEB", "jgGJcemBAhjpOJgieGeCKA",
   "jfBBbBBdbKMBCBbGBJBECIBCBDHBGBBDCJBCpnMABBGAbHABAildLF",
   "daFAbNAcmnNCEJBMbAFBAEBfLDDfPpAPnAcOBfHmkoNBbbKdOlafADBGBBBAbbPCdCAOD", "bbpaAbABcIDbM",
   "kjaAcP", "bakaADBBFHBCBbMCCEJHI", "bgpoEAblbLbnFcJA", "bhiAfNCJGJboGbP",
   "koGJjneAJgjmGbBBcO", "jgEBjomKJgkhGdKFJ", "bgneAdJ", "oiBBBABEBbHBABbGCEBABGBJCD",
   "eBbJGbJcPAMACAFbGBbOBbmADAKABCBAJABAGEbLOBBBAMACCHBBBcGAFAEMbbFBemKBhkIAmaEcFGdAFDFMBeFdJAHpPbcPAeBANAbAMfDAdJBGAbLAbBcIknHbPbjHAhioIHbKgFDeCCBBABHbFNbcOAcaBcKBIBDepjGGebKbJGbJicFFBcJBInheFbOGF",
   "bmaAdHDODC", "jgFApjKbOBLELEADL", "babaHcMemMbdGJbFKH", "baaaALBbJBbCBBBOCNcChKFCEcMDI",
   "clMAbAAcndMBhemEcPhklAA", "cafKAoccFbM", "lHAcnhJAnkoObJFA", "lHAikMLjomAJgjbGcG",
   "bbooAbI", "jfBBbBBdjKMBCBdCBCBFEPCbJpfKAbHAildNC", "geAAbpPbLCA", "geAAbaehPcGEL",
   "bbmhAbPCbFBN", "jgEBbbdjKGBBBcLDABBBIIJ", "bgoeAfK", "kkoAbGmJcNCJ", "boiaAmECP",
   "bajkAbHEbDCcN", "cafNAojcCbP", "bgpaAeKEdIHbA", "kidAJgnmGeELJ",
   "biaAbJGfIHcKhiEApnBBFDogfEM", "bgkeAbOBJEB", "kgGJbaibAGBABDBOBK",
   "baaAjPjiiOAlBbOgBbPgmfAbD", "baiiAbOII", "boenAcJ", "jgEBdiAJppJAIAHAildFFhbgKHCcNCK",
   "bjiAcLEbJGKDB", "bbeaAfLBE", "gaMAOADAbkAdKCCpfdOB", "bgpoBAebiObiL", "bobaAcMDNCJEB",
   "bgiAbM", "bmfAcP", "jgEBbnmgKcKEA", "cafKACAnnDAPAnodOdCNdCHF", "badaAcDJC", "bakiAbP",
   "lHAceIAFCKAbgPApomMcK", "badkAcDEN", "bapaAcH", "bakgAbP", "cafKAnnFAnnmPeI",
   "geAAbaelBAehNbJ", "jfBBbBBbjLCBHCBCbFBGBBBECICBCCHCEBBECbBbbgCAbHA",
   "daBACAGAeMAbabfHcDEcD", "baeiAbNCJ", "bglaAeFKJBGBbEFbC", "baigAbP", "bbkmAdI",
   "biaCBBAicJApnCAhidNdH", "bajaAbLDA", "geAAbafdPbBHDMG", "kjdAcDLA", "bgkAfI",
   "iaAcNCOcfpCA", "kiiAeFIL", "jfBAbdiFABACBCAilePFCAgjeHfP", "lHAbadjIcP", "bbfiAdFCcF",
   "bniaAciLPEBO", "jgEBebLCBbBDbHBIBACGDAEFBABHGJCCopNApeoObD", "geAAbaioPcJ", "bbanAbIHJ",
   "bbkfAfC", "bliAdPbaAH", "daABBAJACAbMADAbbiiOcBOJ", "jgEBiAJjobAcM",
   "daDBCBBAbFACCHBBAcnLAOBCAcAAKKbKAiPNBdLCCbbAKbfiNABA", "bhaAbFJAbFB", "bhdFBcJMBCBB",
   "daABFBDAndDJjaGbNCE", "bkcAdOBbMCKGJGN", "kkiAeCbIE", "jgEBjomKJgoeGdJGJ",
   "jfBBbBBcbMBBFDCBDDBBABBDBDCDLEEDCBDCAGAObEbanPAimbIAgkaNABAdHBmiDdBNA", "bgkhAeOBJ",
   "cppAPboPAbdnpAAbPbhpHIcpPcaAI", "jfBBbBBcjKMBCBbGBPCIBCBDHBBCCACDCJHIbafKAbHA",
   "gaMAOBCAeAJbbGdBpgeAAKA", "clMAbKAcLAcNAkmPdJFbL", "paAeHBcDEcGBcDBOBGEBcacND",
   "daCABACABAckcGdHHBOA", "jfBBbBBbdiMAildNJgmeGeHIJ", "daBACACAJABAeKAbacgBdD", "clMAbnpnDbO",
   "moGJbaaCABAildLFlLAgkiOJBACABcFBJBACABDBJBBIB", "badiAbNBA", "kfaAbcL",
   "bafhAKBOBGBBBKBOBGBB", "bocmAdJFA", "bbikAfCMA", "gaMAOADAeAJbaibGcJBCCB",
   "daaBBFJCHnPAgpaEeiMDdGfkjKE", "bbkaAeH"]

end IncrementalParsing.Unicode
