import IncrementalParsing.Unicode.Coding

/-!
# Binary properties

The properties that hold or do not hold of a code point and that do not follow from its general
category.  The entries `notxidstart` and `notxidcontinue` hold what the two properties leave out of
those they are based on.  The data are those of Unicode 16.
-/

namespace IncrementalParsing.Unicode

/-- The names of each property, separated by blanks, the long one first, and its ranges. -/
def binaryPropertyRanges : List (String × List String) :=
  [("asciihexdigit ahex",
    ["dAJHFbKF"]),
   ("bidicontrol bidic",
    ["gbMAbjpBBbKEdHD"]),
   ("bidimirrored bidim",
    ["cIBbCABAbMABAbNABAcNAPAohODhfNBjjMBKBdGBOBlBAmADDFDADBDDBDBABAEIFABbBFDJBBABHBbPCDFAJBCbCFBJ",
     "ECBEbHCPIDbEBHBedNNeKACDBBBCFDFCDNbjDbFCFBNIAHFDAEEBBCEEABCCBKFCBMbCBDCABACABDFBGCbIBLBEDBBC",
     "BEcKCHBcHFABADEFCEADEBAbaAAcaDDDBBBOBCJcLHbkLJCHmodNFFBkCBbCABAbMABAbNABABBBBnhhHAdJAdJAdJAd",
     "JA"]),
   ("changeswhencasefolded cwcf",
    ["eBbJfKAKbGBHcAABABABABABABABABABABABABABABABABABABABABABABABABABABABACABABABABABABABABBBABAB",
     "ABABABABABABABABABABABABABABABABABABABABBBABABABBBABBBCCDBBBCDBBBBABABBBACABBBCBABBDAHBBBBBB",
     "ABABABABABABABACABABABABABABABABACBBABCBABABABABABABABABABABABABABABABABABABABABABABABABABAB",
     "ABABAHBBBCABDBABABABApGAcKABADAIAGABCBABBBbABIbGAMCDBBABABABABABABABABABABABABBCBBABBCdCdAAB",
     "ABABABABABABABABABABABABABABABAJABABABABABABABABABABABABABABABABABABABABABABABABABABABBBABAB",
     "ABABABACABABABABABABABABABABABABABABABABABABABABABABABABABABABABABABABABABABABABABABABABABAB",
     "ABABABABABACcFdAAlbIcFBAFAdcKFiiCJGcKCCbeAABABABABABABABABABABABABABABABABABABABABABABABABAB",
     "ABABABABABABABABABABABABABABABABABABABABABABABABABABABABABABABABABABABABABABABABABABABABABAB",
     "ABABABAFBCABABABABABABABABABABABABABABABABABABABABABABABABABABABABABABABABABABABABABABABABAB",
     "ABABABABABABABAJHIFKHIHIFLABABABAIHbAcPCCCFFCCFLDMEFCCFbcJADBGAcNPbDAddCbJhdAcPdAABCCABABABD",
     "BACAICBABABABABABABABABABABABABABABABABABABABABABABABABABABABABABABABABABABABABABABABABABABA",
     "BABABABABABAIABAEAhjeNABABABABABABABABABABABABABABABABABABABABABABAbDABABABABABABABABABABABA",
     "BABAiHABABABABABABADABABABABABABABABABABABABABABABABABABABABABABABABABABABABABABAKABABBBABAB",
     "ABAEABACABADABABABABABABABABABABEBEBABABABABABABABDBABBDAFABABABAbIAdhKePepeAGMEeaJbJemFcHiI",
     "cDjMKBOBGBBgoKdCjNbFldKbPffiAbPhkkAcB"]),
   ("changeswhenlowercased cwl",
    ["eBbJgFbGBGcBABABABABABABABABABABABABABABABABABABABABABABABABABABABACABABABABABABABACABABABAB",
     "ABABABABABABABABABABABABABABABABABABABBBABADBBABBBCCDBBBCDBBBBABABBBACABBBCBABBDAHBBBBBBABAB",
     "ABABABABABACABABABABABABABABACBBABCBABABABABABABABABABABABABABABABABABABABABABABABABABABABAB",
     "AHBBBCABDBABABABAbcBABADAIAGABCBABBBbABIcDAIABABABABABABABABABABABAFACABBCdCdAABABABABABABAB",
     "ABABABABABABABABABAJABABABABABABABABABABABABABABABABABABABABABABABABABABABBBABABABABABACABAB",
     "ABABABABABABABABABABABABABABABABABABABABABABABABABABABABABABABABABABABABABABABABABABABABABAC",
     "cFleJcFBAFAcnCfFijDAGcKCCbeAABABABABABABABABABABABABABABABABABABABABABABABABABABABABABABABAB",
     "ABABABABABABABABABABABABABABABABABABABABABABABABABABABABABABABABABABABABABABABABABABAJABABAB",
     "ABABABABABABABABABABABABABABABABABABABABABABABABABABABABABABABABABABABABABABABABABABABABABAJ",
     "HIFKHIHIFLABABABAIHbIHIHIHIELELDMELEbcJADBGAcNPbDAddCbJhdAcPdAABCCABABABDBACAICBABABABABABAB",
     "ABABABABABABABABABABABABABABABABABABABABABABABABABABABABABABABABABABABABABABABABABABAIABAEAh",
     "jeNABABABABABABABABABABABABABABABABABABABABABABAbDABABABABABABABABABABABABABAiHABABABABABABA",
     "DABABABABABABABABABABABABABABABABABABABABABABABABABABABABABABAKABABBBABABABAEABACABADABABABA",
     "BABABABABABABEBEBABABABABABABABDBABBDAFABABABAbIAfhcLbJemFcHiIcDjMKBOBGBBgoKdCjNbFldKbPffiAb",
     "PhkkAcB"]),
   ("changeswhentitlecased cwt",
    ["gBbJdKAcJbHBHBABABABABABABABABABABABABABABABABABABABABABABABABABABABACABABABABABABABBBABABAB",
     "ABABABABABABABABABABABABABABABABABABABACABABCCABACADAFACADCCACABABACAEACADABACADABAEABBBBBAB",
     "ABABABABABABABBBABABABABABABABABCBABADABABABABABABABABABABABABABABABABABABABADABABABABABABAB",
     "ABAIACBBAEABABABABFBBBABBDBBDBECABBCAHACABBDFFAKBkGAcLABADADCbCAbLcCBBDCBABABABABABABABABABA",
     "BABEBACACAdEcPBABABABABABABABABABABABABABABABABAJABABABABABABABABABABABABABABABABABABABABABA",
     "BABABABABACABABABABABABBBABABABABABABABABABABABABABABABABABABABABABABABABABABABABABABABABABA",
     "BABABABABABABABABABABABABABAdBcGohAFiiCIBAoOADAbAAhCABABABABABABABABABABABABABABABABABABABAB",
     "ABABABABABABABABABABABABABABABABABABABABABABABABABABABABABABABABABABABABABABABABABABABABABAB",
     "ABABABABABABABABGFABABABABABABABABABABABABABABABABABABABABABABABABABABABABABABABABABABABABAB",
     "ABABABABABABABABABABIIFKHIHIFKHIHINCHIHIHIEBBGADCBBIDCBIHKCBBbfGAcBPEAdeLbJheGcPBADBBABABAGA",
     "CAKABABABABABABABABABABABABABABABABABABABABABABABABABABABABABABABABABABABABABABABABABABABABA",
     "BABABABABAIABAEAMcFBAFAhjbDABABABABABABABABABABABABABABABABABABABABABABAbDABABABABABABABABAB",
     "ABABABABAiHABABABABABABADABABABABABABABABABABABABABABABABABABABABABABABABABABABABABABAKABACA",
     "BABABABAEAEABBCABABABABABABABABABALABABABABABABABAEABACADAFABABAbKAdfMAbMePepeAGMEecJbJemNcH",
     "iIcDjLKBOBGBBhaDdChNbFldKbPffiAbPhkkCcB"]),
   ("changeswhenuppercased cwu",
    ["gBbJdKAcJbHBHBABABABABABABABABABABABABABABABABABABABABABABABABABABABACABABABABABABABBBABABAB",
     "ABABABABABABABABABABABABABABABABABABABACABABCCABACADAFACADCCACABABACAEACADABACADABAFBBBBBBAB",
     "ABABABABABABBBABABABABABABABABBBBBADABABABABABABABABABABABABABABABABABABABADABABABABABABABAB",
     "AIACBBAEABABABABFBBBABBDBBDBECABBCAHACABBDFFAKBkGAcLABADADCbCAbLcCBBDCBABABABABABABABABABABA",
     "BEBACACAdEcPBABABABABABABABABABABABABABABABABAJABABABABABABABABABABABABABABABABABABABABABABA",
     "BABABABACABABABABABABBBABABABABABABABABABABABABABABABABABABABABABABABABABABABABABABABABABABA",
     "BABABABABABABABABABABABABAdBcGleIcKCCcpIFiiCIBAoOADAbAAhCABABABABABABABABABABABABABABABABABA",
     "BABABABABABABABABABABABABABABABABABABABABABABABABABABABABABABABABABABABABABABABABABABABABABA",
     "BABABABABABABABABABABGFABABABABABABABABABABABABABABABABABABABABABABABABABABABABABABABABABABA",
     "BABABABABABABABABABABABABIIFKHIHIFKHIHINCdEBBEABADCBBEADDCBIHKCBBEAbfBAcBPEAdeLbJheGcPBADBBA",
     "BABAGACAKABABABABABABABABABABABABABABABABABABABABABABABABABABABABABABABABABABABABABABABABABA",
     "BABABABABABABABAIABAEAMcFBAFAhjbDABABABABABABABABABABABABABABABABABABABABABABAbDABABABABABAB",
     "ABABABABABABABAiHABABABABABABADABABABABABABABABABABABABABABABABABABABABABABABABABABABABABABA",
     "KABACABABABABAEAEABBCABABABABABABABABABALABABABABABABABAEABACADAFABABAbKAdfMAbMePepeAGMEecJb",
     "JemNcHiIcDjLKBOBGBBhaDdChNbFldKbPffiAbPhkkCcB"]),
   ("dash",
    ["cNAffMAdDAoeBAeaFAiaJFdNAcHAPAbiGAmaEACAbPBEAbMAblOAbDAgPAmnjABcFAKAkJAogAAbdOA"]),
   ("deprecated dep",
    ["beJAfcJAjaDABAicJBimFFclJBnnmnGA"]),
   ("diacritic dia",
    ["fOABAeHAGAEACBbpHjOBHFFbBBEAJBpNEnBAdHbABbKBABBBAiGHEBiGBEBDCeDbKfLKdKKcCBhOHcJJbAbLdNAbAADD",
     "bMAeKAbAAgOAbAAgOAbAAcPCdMAbAAHAhHAgOAbAAgOAbAAgNBbAAhMAgPAMFBAgLANEeLBbLABABAEBeCCBBdOAhAAB",
     "BcIBEEbJGBAKBcmBCdlEBbOAjEKJAbfLCbcEAbEHCAdAOCKgIAPAcGIdGBdKALBeCBeAFfCbIEAGACCdCdOfJLcFKblN",
     "ABCLCNCNCNBmpACbdNAbpKFgJDfPAhfhCAMBBAbMBfCBOcBgGCgNBMAcFAjHAbLbBdJDcEAfPAMAcEAjFCeBDdDAgEEJ",
     "CiABepdAAdaBPbaOABAcPAcNBeDAcpMAejPFBcJBIchNCEAkFBcdLFcGAbKEbiPCeGKdBDmAAcJAeIBhIBdOAeMAJCgI",
     "BlCBfABbAAbIGDEfJCBBNBfPADAhLBpLBhOAhGBhDAbaNBbaCBEAjMAfDAbCAfBAbkFAbaCABBfBAbkJBbHAbeoMOcmn",
     "JAjmAEdLGcdEBccCbAfABdppODBGBBbpaBcNCbGccACDFIHCGbODoiCdNmCGbhHAdNDcpOBcoAGgNCBC"]),
   ("emoji",
    ["cDAGAFJgPAEAbpiNAMAnIAbGAfKFPBbgPBMAkGAbJKECmHAoHBKAJAdKDBEJACACBCAEACABBCADADBICFABAFLLBCAB",
     "BBAbCACBbCFBABBDBFACBEBLBFBCAFBBABBbEBFFBDCAEACACFBACABABAGADAGAKBPACAEABAECBALBdACJAOAOAbhE",
     "BbmPCbDBdDAEAenKAMAcfJABAblngKAmKAkABMBOACJeLbJBBbHAbEACIbFBkOcBCgPCBBCCfCCCBbaGBdOLFBbHHBCH",
     "MACDCAEBNBCAIBJAFCMCICCABAEAGADAGfFdAeFFHCCEJDABBDACJoDLEAbbLcOBJBlIhAMDJFdHHOCKGI"]),
   ("emojicomponent ecomp",
    ["cDAGAFJbpnDAnFAnncLApdnGbJbpLEflADmaggMfP"]),
   ("emojimodifier emod",
    ["bpdpLE"]),
   ("emojimodifierbase ebase",
    ["cgbNAnLAbADbmmhHAdMCCACChFBCKbFbCDAECBCHABAbIAmJBEAbFAEBkOCDEfDAbACJALAcdPACAIHGAJJCCdIAdNBB",
     "BBAbBCBMoFCcKI"]),
   ("emojipresentation epres",
    ["cdbKBmNDDACAcaJBbFBdCLcLAbDANAIBbBBFBIAFAbFAHBBAEACAHAEBbMAcDABAECBAdNCbIAOAdfLBdDAEAbmekOAm",
     "KAlOACJeLbJBAbIAbEACEBCbFBkOcAMIBeFBbFMcKEEMbADADeGBABlKCdONDBbHbCAbKBNAfGfEdAeFGADCCCEDLBHI",
     "oDLEAbbLcOBJBlIhAMDJFdHHOCKGI"]),
   ("extendedpictographic extpict",
    ["kJAEAbpiNAMAnIAbGAfKFPBbgPBMAfPAeGAbJKECmHAoHBKAJAdKDBFBLBhBKhFCKBABAGADAGAKBPACAEABAECBALEc",
     "NCJAOAOAbhEBbmPCbDBdDAEAenKAMAcfJABAblngGpPNCbPAdMFMBOACJbCdIbLOKAbEACIBDJblBFbdNIbaJdAhPhEL",
     "fFcKMDdIHKFcIHbOfBMcOBJBblIbaAdpN"]),
   ("extender ext",
    ["lHAcbIBdgOAblJAchGAiJAfJAcpAAhPAjeDAdIAcgDAbiOAeEAbdiJAcLEgHBfNCgpbGAfpGAdmCAbGAiJAgMAbFBfeh",
     "LAibABfmLAbLAEAemHAbcFAhEBbpCCemPAfakJBejMBBAhbfIBelBAdfEC"]),
   ("graphemelink grlink",
    ["jeNAhPAhPAhPAhPAhPAhPAhPAgNBbAAhMAgPAhPAmJAlEBgnJBbOAjNAciNAoDAgFBeGBbbiLAhkiGAcFAjHAiOAgMAb",
     "dFApGAfofBAgaGAcJAOAdJAhJBiLAhEAlEAgCAiAChBAhPApMAhPAhGAhEAbaNAbaDBkBAfDAbCAfBAbkFAbaEBfBAbk",
     "JBeboMA"]),
   ("hexdigit hex",
    ["dAJHFbKFpokJJHFbKF"]),
   ("hyphen",
    ["cNAhPAenMAbchLAiaJBoaFAcoDAmngHAkJAfHA"]),
   ("idsbinaryoperator idsb",
    ["cppABCJbpBA"]),
   ("idstrinaryoperator idst",
    ["cppCB"]),
   ("idsunaryoperator idsu",
    ["cppOB"]),
   ("idcompatmathcontinue",
    ["lCBFAbplGADKBObhDAEAbGAblekCAbJAbPAbJAbPAbJAbPAbJAbPAbJA"]),
   ("idcompatmathstart",
    ["ccaCAEAbGAblekCAbJAbPAbJAbPAbJAbPAbJAbPAbJA"]),
   ("ideographic ideo",
    ["daaGBbJIOCdmFbjlPeAfbpPfjaAbgNCgJhfaKAbLbhpHIenFcJJcegHbiLenaEkgnPcAbadJGnNCbgiBObndAPcgNjkC",
     "cbNfoCbdeKFbafP"]),
   ("joincontrol joinc",
    ["caaMB"]),
   ("logicalorderexception loe",
    ["oeAEhLEkpACCAjapKBCABB"]),
   ("modifiercombiningmark mcm",
    ["gfEBCAiDAGADBboBBBCDAbPA"]),
   ("noncharactercodepoint nchar",
    ["pnnAbPcaOBpppOBpppOBpppOBpppOBpppOBpppOBpppOBpppOBpppOBpppOBpppOBpppOBpppOBpppOBpppOBpppOB"]),
   ("otheralphabetic oalpha",
    ["deFAbNMceANBABBBBBAeIKdAMBGbAAgFGEDCBEAcDAbOPgGKgFBDIBCBDgKAdMLDGGbDdGBCOBBFCKBbNCdKGCBCBKAK",
     "BbNCdKEEBCBEAbOBDALCdKHBCBBbFBbGCECdKGCBCBJBKBbOAdLEDCBCKAcIEdJGBCBCIBLBbNCdKGBCBCIBLBPAMDdK",
     "GBCBCKAKBbNCeLFBABHbCBdNACGbCAgDACFBBbAAkDbCJKBcDgOLBACDbHDECBCCGDDNLBAKDghEBbOBbOBbOBeCbClM",
     "BcCAhGLEInOEdJJCbDeKBLCdBEdAOdMCbOICBdJKdCbCbjMcBgmBdDipGbPhihEHcCBbgCAIAbHEfIBdCPBAdJAcGEbM",
     "LcNDdALcFAeDNMAIBcNCdCABCCBFAcMEFAoNHepdDAifHEgiGCBBFDdbEDeBAbeBBePAbaDCdFNcNBLCcNIJAdNCcELb",
     "CBdJCdAMOBfMICAGACAjNJbHDdKGCBCBKAKBfEIBACABDBBgHMBCgKbBoNGCGbNBfCOBAgKKgHNbaBMpHFBBCBDABAiO",
     "GCFEAbMJcKEBDbCKcONbjHHBGfDbFBNhKFDABBBCBADAeCEBBBDbfMDJBBAdAGDCebnNbAocAABdGHDfNBemkMAcdgBG",
     "BbACGBBBEgEAilHAhoIbJGbJGbJ"]),
   ("otherdefaultignorablecodepoint odi",
    ["dePAoaPBgfDBikPAbapOAmodLAePInaaaHABbNgAhPpAoaP"]),
   ("othergraphemeextend ogrext",
    ["jlOAbIAbgGAbIAgGAbIAoIABAEBBBJBgHAbIAhHAPAjdFAbOAeaAAFABAFBgFAeHBebIAbacBBhjcDAgMAffnNBbccAA",
     "hEAbaIAOAJAgAAJACABCFAoAAMApBAbaGAchJAMAgaDAfakOBgbhDBGFmcokNfP"]),
   ("otheridcontinue oidc",
    ["lHAcmPApoBIggIAgdBBbaoNAmogJA"]),
   ("otheridstart oids",
    ["biiFBijBAbFApgMB"]),
   ("otherlowercase olower",
    ["kKAPAbpFIHBbOEgAAdEAniBAmcPdONAcCcEclBANAbAMnDPdfAbJhjCBhkbOBnCAiBCDBdgCDJAfmbGACCBcJBInihFd",
     "N"]),
   ("othermath omath",
    ["fOAdhBCCAbKBCBbmcAAbLCLAcADbIBOBeBMEADBEEbCAEACJBADEGADBCBBCBFDDFEeLECDBBBBBABECBEBEbBCBBABG",
     "BAGBbcCDkIBBAbIAbBAblNBMIFEFBCBDEOABACFbIBdJABAbNDJBbfGBbPJbjDbFdPDcABnegDABAEAnDABAnemBfEBe",
     "GBBCACBCDBLBABGBeABDCHBGBbLBDBEBADGBbfDCbIBbIBbOBbIBbOBbIBbOBbIBbOBbIBHCdBbgaADBbKBBBACABJBD",
     "BABAGAEABABABCBBBACABABABABABBBACDBGBDBDBABJBbAFCBEBbA"]),
   ("otheruppercase oupper",
    ["cbgAPdeGbJbmmgAbJGbJGbJ"]),
   ("patternsyntax patsyn",
    ["cBOKGbKDBAbKDcCGBABBBABBEAEADAbHAbPAbpbIbHIOCbCBJbdBcmPkAchFbOegLcaAhPbiBCEbIPAmnaNBbaFB"]),
   ("patternwhitespace patws",
    ["JEbCAgEAbpiIBbIB"]),
   ("prependedconcatenationmark pcm",
    ["gaAFnHAdBAbiABfAAbahnKAPA"]),
   ("quotationmark qmark",
    ["cCAEAiDAPAbpfMHbJBoaHAbmJDNCmocBDlNAEAfKB"]),
   ("radical",
    ["coiAbJBfIMnF"]),
   ("regionalindicator ri",
    ["bpboGbJ"]),
   ("sentenceterminal sterm",
    ["cBAMAbAAfeJAjDClEAcLCpGAdNABADBbcFBgoEBdbGAEBdaFAmGBjNBcNAFAbdKBbgCDkCBKBCBbNClLBeBBdkEAbHBJ",
     "CmkPCbdCANAbGBbkNAhepMAbaOBoDADAbhOBfGBfPAjIBjDCjABpJAfccGACBdLADBkJAMAbAAeBAkpEBepNEcMDlNBh",
     "FDhPCiBBGAbABfIBBBgMAbcKBhFBbhFBFOgJBpJCcaFABApLBfHBbkEBclEBeKBelcJBiFAeBBLAccJBbcIAeoaGAbno",
     "IA"]),
   ("softdotted sd",
    ["gJBmEAbbJAbOAdEAbEAbeAAgCABAbjaJAdDANADAiEAjNAbkFAnGBldCAbkhkFBdCBdCBdCBdCBdCBdCBdCBdCBdCBdC",
     "BdCBdCBiiGAbdBBbKA"]),
   ("terminalpunctuation term",
    ["cBAKABALBDAddOAIAcaBAdJAeIAOABClEAcLKBAoLBdGFBHbPAbaFBepEBkMAEFbdHBdbFHdaFAhMCeHBjNCDAcHDCBb",
     "dKBbgCDkCBKBBCbNClLEdOBdkEAbHBJCmkPCbdCANAEAKABBDBbkMBhepLBbaNCoDEbhOBfGBfPAjHCjDChPAbABpJAf",
     "ccGACBdJCBDkJAKABALBDAeBACAedKAdAAeiGAmHAbdGBjIFeEFfJDdlIEcMDlNGhADhPCiBBGAbABfIEgMAbcKBhFCM",
     "BbgGDDOgJBpJCcaFABApLBfHBEBbjOCcNAciFBeKBfcLEefpJBiFAeBCKAccJBbcHBeoaGAbnoHD"]),
   ("unifiedideograph uideo",
    ["deaAbjlPeAfbpPfkaOBBABBKABABBCCbafnGkgnPcAbadJGnNCbgiBObndAPcgNbbkCbdeKFbafP"]),
   ("variationselector vs",
    ["biaLCBAofpAPnacpAoP"]),
   ("whitespace space wspace",
    ["JEbCAgEAbKAbfnPAjhPKbNBFAcPApkAA"]),
   ("notxidcontinue",
    ["dhKAcncABmlmBFbjGBhEABABABABABABABA"]),
   ("notxidstart",
    ["dhKAklIAhPAcboHBmlmBFbjGBhEABABABABABABABAbbPB"])]

end IncrementalParsing.Unicode
