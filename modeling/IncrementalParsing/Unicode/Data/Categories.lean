import IncrementalParsing.Unicode.Coding

/-!
# General categories

Every code point has one general category.  `categoryRuns` covers the code points in order by runs
of one category; category `0` holds the unassigned code points and the surrogates, category `i + 1`
is the `i`-th of `categoryNames`.  The data are those of Unicode 16.
-/

namespace IncrementalParsing.Unicode

/-- The names of each category, the long one first. -/
def categoryNames : List (List String) :=
  [["uppercaseletter", "lu"],
   ["lowercaseletter", "ll"],
   ["titlecaseletter", "lt"],
   ["modifierletter", "lm"],
   ["otherletter", "lo"],
   ["nonspacingmark", "mn"],
   ["spacingmark", "mc"],
   ["enclosingmark", "me"],
   ["decimalnumber", "digit", "nd"],
   ["letternumber", "nl"],
   ["othernumber", "no"],
   ["connectorpunctuation", "pc"],
   ["dashpunctuation", "pd"],
   ["openpunctuation", "ps"],
   ["closepunctuation", "pe"],
   ["initialpunctuation", "pi"],
   ["finalpunctuation", "pf"],
   ["otherpunctuation", "po"],
   ["mathsymbol", "sm"],
   ["currencysymbol", "sc"],
   ["modifiersymbol", "sk"],
   ["othersymbol", "so"],
   ["spaceseparator", "zs"],
   ["lineseparator", "zl"],
   ["paragraphseparator", "zp"],
   ["control", "cc", "cntrl"],
   ["format", "cf"],
   ["privateuse", "co"]]

/-- Runs of one category, in order. -/
def categoryRuns : List (Nat × Nat) := decodePairs
  ["bPbKAbHCbCAbECbCAOAPAbCAbDAbCANBbCJJBbCCbDBbCbJBAOAbCAPAbFAMAbFbJCAOAbDAPAbDcAbKAbHAbCDbEAbG",
   "AbCAbFAbGAFAbAAbDAbLAbGAbFAbGAbDBLAbFACBbCAbFALAFAbBCLAbCbGBAbDGBbHCAbDHCABACABACABACABACABA",
   "CABACABACABACABACABACABACABACABACABACABACABACABACABACABACABACABACABACABACABACABACABACABACABB",
   "CABACABACABACABACABACABACABACABBCABACABACABACABACABACABACABACABACABACABACABACABACABACABACABA",
   "CABACABACABACABACABACABACABACABACBBACABACABCCBBACABACBBACCBBCDBACBBACCBCCBBACBBACABACABACBBA",
   "CABBCABACBBACCBACABACBBBCAFABCCDFABADACABADACABADACABACABACABACABACABACABACABACABBCABACABACA",
   "BACABACABACABACABACABACABBCABADACABACCBACABACABACABACABACABACABACABACABACABACABACABACABACABA",
   "CABACABACABACABACABACABACABACABACABACABACABACABACABACABACABACABGCBBACBBBCABACDBACABACABACABA",
   "CABeECAFbKCbBEDbFLENbFEEGbFAEAbFAEbAbFgPGABACABACAEAbFABACBAAECCAbCABDABbFABAbCCBAAABAABBACb",
   "ABAAIBcCCABBCCBCCABACABACABACABACABACABACABACABACABACABACABACABECABACAbDABACBBBCdCBcPCABACAB",
   "ACABACABACABACABACABACABACABACABACABACABACABACABACABACABACABACAbGEGBIABACABACABACABACABACABA",
   "CABACABACABACABACABACABACABACABACABACABACABACABACABACABACABACABACABACABACABACABACABACBBACABA",
   "CABACABACABACABACABBCABACABACABACABACABACABACABACABACABACABACABACABACABACABACABACABACABACABA",
   "CABACABACABACABACABACABACABACABACABACABACABACABACABACABACABACABACABACABACABACABACABACABACABA",
   "CABACABACABACABACABACABACABACAAcFBBAAEFbCcICAbCANBABbGAbEAAcMGANAGAbCBGAbCBGAbCAGHAbKFDADFBb",
   "CKAFbLCbDBbCAbEBbCBbGKGAbCAbLCbCbPFAEJFbEGJJDbCBFAGgCFAbCAFGGAbLAbGFGBEBGAbGDGBFJJCFBbGAFNbC",
   "AAAbLAFAGbNFbKGBAfIFKGAFNAJJcAFIGBEAbGCbCAEBAAGBbEbFFDGAEIGAECGAEEGBAObCAAbIFCGBAAbCAAKFEAbH",
   "FAbFFFAABbLEAIGcIFAEbHGAbLbPGAHdFFAGAHAGAFCHHGDHAGBHAFGGJFBGBbCJJAbCAEOFAGBHAAHFBABFBAbFFAAG",
   "FAAAFCADFBAAGAFCHDGBABHBABHAGAFHAAHDABFAACFBGBAJJBFBbEFLAbGAbEAFAbCAGBABGAHAAFFDABFBAbFFAAGF",
   "AABFAABFAABFBAAGAACHBGDABGBACGCAAGGADFAAAFGAJJBGCFAGAbCJABGAHAAIFAACFAAbFFAAGFAABFAAEFBAAGAF",
   "CHEGAABGAHAABHAGBAAFOABFBGBAJJAbCAbEGAAFFGAAAGBHAAHFBABFBAbFFAAGFAABFAAEFBAAGAFAHAGAHDGBABHB",
   "ABHAGGABGAHDABFAACFBGBAJJAbGAFFLJAAGAFAAFFCACFAADFCABFAAAFAABFCABFCACFCALFDABHAGBHCACHAACHAG",
   "BAAFFAAHNAJJCLFbGAbEAbGEAAGCHAGHFAACFAAbGFAAPFBAAGAFCGDHAACGAADGGABGAACFBAAFBABFBGBAJJGAAbCG",
   "LAbGAFAGBHAbCHFAACFAAbGFAAJFAAEFBAAGAFAHAGEHAAAGBHAABHBGGABHFABFAABFBGBAJJAABFAHLABGBHIFAACF",
   "AAcIFBGAFCHDGAACHAACHAGAFAbGDACFAHGLCFBGBAJJILAbGFFAAAGBHAAbBFCAbHFAAIFAAAFBAGFCAAGDACHCGAAA",
   "GAAHHFAJJBABHAbCLAcPFAGBFGGDAAbEFFAEHGAbCJJBbCcEABFAAAFAAEFAAbHFAAAFAAJFAGBFIGAFBAEFAAAEAAGG",
   "AAJJBADFbPAAFCbGObCAbGAbCCbGBGFbGJJJLAbGAGAbGAGAbGAGAOAPAOAPBHHFAAcDFDANGAHEGAbCBGEFKGAAcDGA",
   "AHbGAGFbGAABbGEbCDbGBbCcEAcKFBHDGAHFGAHBGBHBGAFJJFbCFFBHBGDFCGAFCHBFGHCFDGMFAGBHBGFHAGAFAHJJ",
   "CHAGBbGcFBAAABEAABBAcKCAbCAECCbeIFAADFBAGFAAAFAADFBAcIFAADFBAcAFAADFBAGFAAAFAADFBAOFAAdIFAAD",
   "FBAeCFBACGIbCbDLCAPFJbGFAfFBBAFCBAANcgLFAbGAbCbAFAbHbJFAOAPCAeKFCbCCKHFGAbBFCGAHIAbCFBGAHBbC",
   "IAbBFBGLAMFAACFAABGLAdDFBGAHGGHHAGBHKGCbCAECbCAbEAFAGBAJJFAJLFAFbCANDbCCGAbLAGJJFAcCFAEdEFGA",
   "EFBGcBFAGAFEAeFFJAbOFAACGDHBGCHDABHAGFHCGDAAbGCABbCJJbNFBAEFKAcLFDAbJFFAJJALCAcBbGbGFBGBHAGB",
   "ABbCdEFAHAGAHGGAAAGAHAGBHHGFHJGBAAGJJFAJJFAGbCAEFbCBANGAIPGdAADGAHcOFAGAHEGAHAGEHAGBHHFAABbC",
   "JJGbCJbGIGIbGCbCBGAHbNFAHDGBHBGAHCGBFJJcLFAGAHBGCHAGAHCGBHHADbCcDFHHHGBHBGCAEbCJJCACFJJbNFFE",
   "BbCICABACEAcKBBACBHbCHACGAbCMGAHGGDFAGFFAGBFAHBGAFEAcLCdOEMCAEcBCcEEdPGABACABACABACABACABACA",
   "BACABACABACABACABACABACABACABACABACABACABACABACABACABACABACABACABACABACABACABACABACABACABACA",
   "BACABACABACABACABACABACABACABACABACABACABACABACABACABACABACABACABACABACABACABACABACABACABACA",
   "BACABACABACABACABACABACABACABACABACABACABACABACABACABACABACABACABACABACABACABACABACABACABACA",
   "BICABACABACABACABACABACABACABACABACABACABACABACABACABACABACABACABACABACABACABACABACABACABACA",
   "BACABACABACABACABACABACABACABACABACABACABACABACABACABACABACABACABACABACABACABACABACABACABACA",
   "BACABACABACABICHBFCBAFBBAHCHBHCHBFCBAFBBAHCAAABAAABAAABAAABHCHBNCBAHCHDHCHDHCHDECAABCDBADAbF",
   "ACCbFCCAABCDBADCbFDCBABCDBAACbFHCEBCbFBACCAABCDBADBbFAAKbHEbLFNBbCAbAAbBAOBbAAbBAOAbAHbCAbIA",
   "bJEbLAbHIbCAbAAbBDbCBMCbCAbDAOAPKbCAbDAbCAMJbCAbHEbLAAJbLALAEBAFLCbDAOAPAEJLCbDAOAPAAMECAcAb",
   "EOAMGDIAGCILGOABbGABDbGABBbGACCBBCCBACAbGABBbGAbDEBFbGABAbGABAbGABAbGDBAbGACDBACDFACBbGBCBBE",
   "bDABDCAbGAbDBbGACAbGPLcCKABACDKALBbGDAEbDEbGBbDDbGAbDBbGAbDBbGAbDGbGAbDbObGBbDBbGAbDAbGAbDbO",
   "bGbaLbDHbGAOAPAOAPbDbGBbDGbGAOAPfAbGAbDbNbGbIbDcHbGFbDeHbGbFAKbGbEAdLLeNbGbFLlGbGAbDIbGAbDdF",
   "bGHbDgObGAbDpHbGAOAPAOAPAOAPAOAPAOAPAOAPAOAPbNLcLbGEbDAOAPbObDAOAPAOAPAOAPAOAPAOAPPbDpPbGiCb",
   "DAOAPAOAPAOAPAOAPAOAPAOAPAOAPAOAPAOAPAOAPAOAPdObDAOAPAOAPbPbDAOAPbaBbDcPbGbEbDBbGFbDcGbGBAbP",
   "bGAAgIbGcPBcPCABACCBBCABACABACABACDBACABBCABFCBECBACABACABACABACABACABACABACABACABACABACABAC",
   "ABACABACABACABACABACABACABACABACABACABACABACABACABACABACABACABACABACABACABACABACABACABACABAC",
   "ABACABACABACABACABACABACABACABACABACABACABACABACABACABACABACABBCFbGABACABACCGABACEADbCALBbCc",
   "FCAAACEAACBAdHFGAAEAbCNAAGbGFIAGFAAGFAAGFAAGFAAGFAAGFAAGFAAGFAAbPGBbCAbAAbBAbAAbBCbCAbAAbBAb",
   "CAbAAbBIbCANBbCANAbCAbAAbBBbCAbAAbBAOAPAOAPAOAPAOAPEbCAEJbCBNDbCANAbCAOMbCBbGCbCAOAPAOAPAOAP",
   "AOAPANcBAbJbGAAfIbGLAnFbGbJAPbGAbHCbCAbGAEAFAKAOAPAOAPAOAPAOAPAOAPBbGAOAPAOAPAOAPAOAPANAOBPA",
   "bGIKDGBHANEEBbGCKAEAFAbCBbGAAfFFBABGBbFBEAFANfJFAbCCEAFEAcKFAAfNFAABbGDLJbGbPFcFbGIAAbGPFbOb",
   "GAAJLbNbGHLAbGOLbPbGJLcGbGOLbdPbGbjlPFdPbGfcbEFAEehGFCAdGbGIAcHFFEBbCbaLFAECbCPFJJBFbDAABACA",
   "BACABACABACABACABACABACABACABACABACABACABACABACABACABACABACABACABACABACABACABACABACABACAFAGC",
   "IAbCJGAbCAEABACABACABACABACABACABACABACABACABACABACABACABACABACABACBEBGeFFJKBGFbCHAbGbFIEBbF",
   "ABACABACABACABACABACABACABCCABACABACABACABACABACABACABACABACABACABACABACABACABACABACABACABAC",
   "ABACABACABACABACABACABACABACABACABACABACABACABACABACABACABACAEHCABACABACBBACABACABACABACABAC",
   "AEBbFABACABACAFABACABCCABACABACABACABACABACABACABACABACABACABACEBACEBACABACABACABACABACABACA",
   "BACABACDBACABACBBACBAABACAAACAAACABACABACABACABbEACEABACAFBEACGFAGCFAGDFAGbGFBHBGAHDbGAGCAFL",
   "BbGAbEAbGFAdDFDbCHABHdBFPHBGHABbCJJFAbBGFFCbCAFAbCBFAGJJbLFHGBbCbGFKGBHKAAbCbMFCACGAHcOFAGBH",
   "DGBHBGCHMbCAAAEJJDABbCEFAGAEIFJJEFAAcIFFGBHBGBHBGIACFAGHFAGAHBAJJBADbCPFAEFFCbGAFAHAGAHdBFAG",
   "AFCGBFBGEFBGAFAGAFbHABFAEBbCKFAHBGBHBbCAFBEAHAGJAFFBAFFBAFFIAGFAAGFAAcKCAbFDEICAEBbFDAePCcCF",
   "BHAGBHAGBHAbCAHAGBAJJFAclkDFLAbGFDAdAFiaDAbipPbMbgNFBAgJFcFAGCLAECEAAFAGJFAbDMFAAEFAAAFAABFA",
   "ABFAAgLFbAbFPAbgKFAPAOPbGdPFBAdFFGAAbGbPALFAbECbGPGGbCAOAPAbCFAPGAbCBNBMAOAPAOAPAOAPAOAPAOAP",
   "AOAPAOAPAOAPBbCAOAPDbCCMCbCAADbCANAOAPAOAPAOAPCbCAbDANCbDAAAbCAbEBbCDAEFAAiGFBAAbLAACbCAbECb",
   "CAOAPAbCAbDAbCANBbCJJBbCCbDBbCbJBAOAbCAPAbFAMAbFbJCAOAbDAPAbDAOAPAbCAOAPBbCJFAEcMFBEbOFCAFFB",
   "AFFBAFFBACFCABbEAbDAbFAbGBbEAAAbGDbDBbGJACbLBbGBALFAAbJFAAbCFAABFAAOFBANFcBAhKFEACbCDAcMLCAI",
   "bGdEKDLbAbGBLCbGAAMbGCAAbGcOAcMbGAGiBAbMFCAdAFOAAGbKLDAbPFDLIAbDFAKHFAKEAcFFEGEAbNFAAAbCcDFD",
   "AHFAbCEKcJAcHBcHCeNFBAJJFAcDBDAcDCDAcHFHAdDFKAAbCKBAAOBAAGBAABBAAKCAAOCAAGCAABCCAdDFLAbdGFIA",
   "bFFJAHFbHAFEAAcJEAAIEeEAFFBAAFAAcLFAABFCAAFBAbGFAAAbCHLbGFBbGGLbOFHAILcPAbCFAABFEAELbFFFLCAA",
   "bCbJFEAAbCdPAdHFDABLBFPLBAcNLAFCGAABGEADGDFAACFAAbMFBACGDAAGILGAIbCGAbMFBLAbCbMFCLbPAHFAbGbL",
   "FBGDAELGbCIAdFFCAGbCbFFBAHLbCFEAHLbBFGADbCLAGLePAeIFdGAdCBMAdCCGAFLcDFDGHAJJFAJJDFAEAFbFBCAE",
   "GANAEbFCHABbDmPAbOLAAcJFAABGANBABFPACFdGADGbMFJLAFHAbFFKGDLEbCbFAbBFDGDbCcFAbEFGLbDAbGFIAAHA",
   "GAHdEFOGGbCDAbDLJJAGBFBGAFIACGAHcMFCHDGBHBGBbCAbLDbCAGJAAbLBAbIFGAJJFACGcDFEGAHHGAAJJDbCAFBH",
   "AFHAcCFAGBbCAFIABGAHcPFCHIGBHDFDbCDGAbCAHAGJJAFAbCAFCbCAAbDLKAbBFAAbIFCHCGBHAGAHBGFbCAGBFAGd",
   "NAGFAAAFAADFAAOFAAJFAbCFAcOFAGCHHGEAJJFABGBHAAHFBABFBAbFFAAGFAABFAAEFAABGAFBHAGDHBABHBACHBAA",
   "FFAAHEAEFBHBAGGCAEGKAJFAAAFBAAFAAcFFAAAFCHFGAAAHBAAHAADHAABHAGAHAGAFAGAFBbCAABbCHABGbMAdEFCH",
   "HGBHCGAHAGDFEbCJJBbCAAAbCAGCFbNAcPFCHFGAHAGDHBGAHBGBFAbCAFHAJJkFAcOFCHDGBADHBGAHBGbGbCDFBGcB",
   "AcPFCHHGBHAGAHBGCbCAFKAJJFAMbCbCAcKFAGAHAGBHFGAHAGAFAbCFAJJFAbDJbLAbKFBAAGAHAGBHDGAHEGDAJJBL",
   "CbCAbGGFlIAcLFCHIGAHBGAbCgDAbPBbPCJJILLAHFBAAFBAHFAABFAAbHFFHAABHBABGAHAGAFAHAFAHAGCbCIAJJeF",
   "AHFBAcGFCHDGBABGDHAGAFAbCAFAHbKAAFJGcHFFGAHAFDGHbCAGHAAFFGBHCGcNFMGAHBGCbCAFEbCMAeIFGAJbClFA",
   "cAFAbCNAJJFAIFAAcEFAHGGAAFGAHAGAFEbCJAJJbCLCABbCbNFBAbFGAAAHGGAHBGAHBGeIAGFAABFAAcFFFGCAAGAA",
   "BGAAGGAFAGHAJJFAFFAABFAAbPFEHAABGAABHAGAHAGAFGAJJbdFAbCFBGBHBbCGABGAFAHMFAAcBFBHEGCABHAGAHAG",
   "MbCJJAGfEAAFOAbELHbGDbEbAbGMAAbCdjJFgFAgOKAAEbCKAmDFkeLAgAFBbCMAecPFPbLAGFFOGJApjKFEAceGFbkl",
   "IAbNFLGCHCGJJgmFAcdIFGAbOFAAJJDABbCeOFAAJJFAbNFBAEGAbCJAcPFGGEbCDbGDEAbCAbGJAJJAAGLAAbEFEAbC",
   "FbkPACEcHFBECbCJJmFAbPBbPCbGLDbCgEAeKFDAAGAFdGHGADGMEdPABEAbCAEAGKABHNAbhpHFHAenFFcIAJFccoGA",
   "DEAAGEAABEAAbcCFOAAFbMACFBAAFNADFHAbiLFjaDAgKFEAMFCAIFGAJFBAAbGBGAbCDbLpfLAoPbGJJFAblDbGeLAc",
   "NGBAbGGIAhDbGdLApFbGJAcGbGBAdLbGBHCGCbGFHHbLHGBbGGGbNbGDGdMbGbEAeBbGCGAbGhJAbDLLAbDLLAfGbGIA",
   "bILiGAbJBbJCbJBGCAAbBCbJBbJCABAABBBAABBABBBADBAAHBDCAAACAAGCAAKCbJBbJCBBAADBBAHBAAGBAAbJCBBA",
   "ADBAAEBAAABCAGBAAbJCbJBbJCbJBbJCbJBbJCbJBbJCbJBbJCbJBbLCBAbIBAbDbICAbDFCbIBAbDbICAbDFCbIBAbD",
   "bICAbDFCbIBAbDbICAbDFCbIBAbDbICAbDFCABACBAdBJbpPbGdGGDbGdBGHbGAGNbGAGBbGEbCOAEGAAOGeePAJCAFb",
   "DCFAFCnEAGGAAbAGBAGGAABGAAEGEAdNEcAAAGgPAcMFCAGGGEBAJJDAAFAbGbdPAbNFAGbAAcLFDGJJEAAbEbmPAbKF",
   "AEDGJJnFAbNFBGAFJJDAAbCbnPAGFAADFAABFAAOFAAmEFBAILGGcIAcBBcBCGGAEDAJJDABbCdbAAdKLAbGCLAbEDLe",
   "LAcMLAbGOLmBADFAAbKFAABFAAAFBAAFAAJFAADFAAAFAAAFFAAFDAAFAAAFAAAFAACFAABFAAAFBAAFAAAFAAAFAAAF",
   "AAAFAABFAAAFBADFAAGFAADFAADFAAAFAAJFAAbAFEACFAAEFAAbAFdDABbDbaNAcLbGDAgDbGLAObGBAObGAAObGAAc",
   "EbGJAMLkAbGdHAbMbGMAcLbGDAIbGGABbGNAFbGjJApKbGEbFcnHbGDAbAbGCAMbGCAhGbGDAfObGFALbGDAAbGOALbG",
   "DAdHbGHAJbGFAcHbGHAbNbGBALbGDABbGdNAbfDbGLANbGBAMbGCAJbGEAdHbGGAObGBAKbGFAIbGGAjCbGAAfLbGJJe",
   "aFAkgnPFbPAbadJFFAnNFBAbgiBFNAbndAFOAcgNFjkBAcbNFfoBAbdeKFEAbafPFknmfAAAbLbNAfPbLhPAoPGpoaPA",
   "pppNbMBApppNbMBA"]

end IncrementalParsing.Unicode
